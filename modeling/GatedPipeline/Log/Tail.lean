import GatedPipeline.Log.Basic
import GatedPipeline.Log.Header

/-!
Reading. A tailer is a cursor of its own: it loads one header at a time, passes fillers, and stops
where nothing has been committed yet. Finding nothing moves no cursor past it, so a later read
sees what is committed later.
-/

namespace GatedPipeline

/-- A read cursor: where the next header stands and the index of the next record. -/
structure Tailer where
  position : Nat
  next : Nat
  deriving DecidableEq, Repr

structure Entry where
  index : Nat
  view : View
  deriving DecidableEq, Repr

def Entry.describe (log : Log) (entry : Entry) : String :=
  "Some(Entry \x7b index: " ++ toString entry.index ++ ", record: " ++
    (log.record entry.view).describe ++ " \x7d)"

namespace Tailer

def start : Tailer := ⟨0, 0⟩

/-- What one header load finds. Nothing may be committed there yet, and behind a filler the cursor
goes on. -/
inductive Probe where
  | pending
  | passed (tailer : Tailer)
  | found (entry : Entry) (tailer : Tailer)
  | broken (fault : Fault)
  deriving DecidableEq, Repr

/-- What the header word at the cursor's position says. -/
def classify (log : Log) (tailer : Tailer) : Except Fault Probe := do
  let first ← Checked.add tailer.position Log.headerBytes
  if log.capacity < first then return .pending
  log.access tailer.position 1
  match Log.Header.ofWord (log.word tailer.position) with
  | .empty => return .pending
  | .padding skip => return .passed ⟨← Checked.add tailer.position skip, tailer.next⟩
  | .malformed => throw (.malformedHeader tailer.position)
  | .record length =>
      let body ← Checked.add tailer.position Log.headerBytes
      log.access body (length / 8)
      if length / 8 ≤ 2 then throw (.recordTooShort (length / 8))
      return .found ⟨tailer.next, ⟨body, length / 8⟩⟩
        ⟨← Checked.add body length, ← Checked.add tailer.next 1⟩

def probe (log : Log) (tailer : Tailer) : Probe :=
  match classify log tailer with
  | .ok probe => probe
  | .error fault => .broken fault

/-- Header loads until one finds a record or nothing. -/
def advance (log : Log) : Nat → Tailer → Tailer × Except Fault (Option Entry)
  | 0, tailer => (tailer, .ok none)
  | fuel + 1, tailer =>
      match probe log tailer with
      | .pending => (tailer, .ok none)
      | .passed after => advance log fuel after
      | .found entry after => (after, .ok (some entry))
      | .broken fault => (tailer, .error fault)

/-- The next record, or nothing if it has not been committed. A filler takes a word at least, so
the log's words bound the fillers passed. -/
def read (log : Log) (tailer : Tailer) : Tailer × Except Fault (Option Entry) :=
  advance log (log.capacity / 8 + 1) tailer

/-- Reads on until the cursor stands in front of record `index`, over so many records. -/
def readUntil (log : Log) (index : Nat) : Nat → Tailer → Tailer × Except Problem Unit
  | 0, tailer => (tailer, .ok ())
  | records + 1, tailer =>
      match read log tailer with
      | (after, .ok (some _)) => readUntil log index records after
      | (after, .ok none) => (after, .error (.of (.notCommitted log.name index after.next)))
      | (after, .error fault) => (after, .error (.broken fault))

/-- Moves the cursor in front of record `index`; going back starts again from the front. -/
def seek (log : Log) (index : Nat) (tailer : Tailer) : Tailer × Except Problem Unit :=
  let origin := if index < tailer.next then start else tailer
  readUntil log index (index - origin.next) origin

/-- Reads all that is committed behind the cursor, as at most so many records. -/
def drain (log : Log) : Nat → Tailer → Tailer × List Entry × Except Fault Unit
  | 0, tailer => (tailer, [], .ok ())
  | records + 1, tailer =>
      match read log tailer with
      | (after, .ok none) => (after, [], .ok ())
      | (after, .error fault) => (after, [], .error fault)
      | (after, .ok (some entry)) =>
          let (final, entries, outcome) := drain log records after
          (final, entry :: entries, outcome)

end Tailer

namespace Log

/-- All committed records in order, as a fresh cursor reads them. A record takes a word at least,
so the log's words bound their number. -/
def entries (log : Log) : List Entry := (Tailer.drain log (log.capacity / 8 + 1) .start).2.1

end Log

end GatedPipeline
