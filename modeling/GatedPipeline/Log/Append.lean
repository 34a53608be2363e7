import GatedPipeline.Log.Basic
import GatedPipeline.Log.Header

/-!
Appending. An append is planned as the single stores it makes, in their order: the words of the
body, the filler in front of the record if there is a gap, the header that commits the record, and
the two counters. A reader that sees the committing header therefore sees the whole body, and an
append that is refused or breaks in its fill commits nothing.

Pretouching keeps ahead of the appender: the pages in front of the write position are touched before
the appender reaches them. A touch adds zero to the first word of a page, so it changes no word.
-/

namespace GatedPipeline

/-- The one writer of a log: where its last entry ended and the index of its next record. -/
structure Appender where
  position : Nat
  next : Nat
  deriving DecidableEq, Repr

namespace Log

inductive Store where
  | word (position : Nat) (value : Word)
  | writePosition (position : Nat)
  | appended (records : Nat)
  deriving DecidableEq, Repr

def store (log : Log) : Store → Log
  | .word position value => log.setWord position value
  | .writePosition position => { log with writePosition := position }
  | .appended records => { log with appended := records }

def storeAll (log : Log) (stores : List Store) : Log := stores.foldl Log.store log

/-- The stores of an append, and the appender after it or why it ended early. -/
structure Plan where
  stores : List Store
  outcome : Except Problem Appender

/-- Where the next record of an appender goes: its header, its body and the end of its body. -/
structure Slot where
  header : Nat
  body : Nat
  stop : Nat
  deriving DecidableEq, Repr

/-- The slot of the appender's next record, if the log has room for it. -/
def slot (log : Log) (appender : Appender) : Except Problem Slot := do
  let bytes := log.layout.bytes
  let header ← orBroken (headerAfter appender.position)
  let body ← orBroken (Checked.add header headerBytes)
  let stop ← orBroken (Checked.add body bytes)
  if log.capacity < stop then
    throw (.of (.logFull log.name appender.next bytes body log.capacity))
  if log.layout.words ≤ 2 then throw (.broken (.recordTooShort log.layout.words))
  orBroken (log.access body log.layout.words)
  orBroken (log.access appender.position 1)
  orBroken (log.access header 1)
  let _ ← orBroken (Checked.add appender.next 1)
  return ⟨header, body, stop⟩

/-- The stores of a fill, up to the edit that breaks if one does. -/
def fillStores (body words : Nat) : List Edit → List Store × Except Fault Unit
  | [] => ([], .ok ())
  | edit :: rest =>
      match edit.target words with
      | .error fault => ([], .error fault)
      | .ok (index, value) =>
          let (stores, outcome) := fillStores body words rest
          (.word (body + index * 8) value :: stores, outcome)

/-- The filler in front of a record, if its header does not follow the last entry at once. -/
def paddingStores (position header : Nat) : List Store :=
  if header = position then [] else [.word position (Header.paddingWord (header - position))]

/-- Plans the append of one record whose words are written by `fill`. -/
def plan (log : Log) (appender : Appender) (fill : List Edit) : Plan :=
  match log.slot appender with
  | .error problem => ⟨[], .error problem⟩
  | .ok slot =>
      match fillStores slot.body log.layout.words fill with
      | (stores, .error fault) => ⟨stores, .error (.broken fault)⟩
      | (stores, .ok ()) =>
          ⟨stores ++ paddingStores appender.position slot.header ++
              [.word slot.header (Header.recordWord log.layout.bytes), .writePosition slot.stop,
                .appended (appender.next + 1)],
            .ok ⟨slot.stop, appender.next + 1⟩⟩

/-- Appends a record written by `fill` and answers its index. -/
def appendWith (log : Log) (appender : Appender) (fill : List Edit) :
    Log × Appender × Except Problem Nat :=
  match log.plan appender fill with
  | ⟨stores, .ok after⟩ => (log.storeAll stores, after, .ok appender.next)
  | ⟨stores, .error problem⟩ => (log.storeAll stores, appender, .error problem)

/-- The edits that write the given words from the front of a record. -/
def editsOf : List Word → List Edit
  | [] => []
  | first :: times =>
      .remaining first.signed :: times.zipIdx.map fun pair => .stamp pair.2 pair.1

/-- Appends a record with the given words; it keeps the words that are not given. -/
def append (log : Log) (appender : Appender) (words : List Word) :
    Log × Appender × Except Problem Nat :=
  if log.layout.words < words.length then
    (log, appender, .error (.of (.recordTooWide words.length log.layout.words)))
  else log.appendWith appender (editsOf words)

/-- The single appender of the log. It starts at the front, over what is there. -/
def takeAppender (log : Log) : Except Failure (Log × Appender) :=
  if log.appenderTaken then .error (.of (.appenderTaken log.name))
  else .ok ({ log with appenderTaken := true }, ⟨0, 0⟩)

def releaseAppender (log : Log) : Log :=
  match log with
  | ⟨name, path, capacity, layout, words, writePosition, pretouched, appended, _⟩ =>
      ⟨name, path, capacity, layout, words, writePosition, pretouched, appended, false⟩

/-! ### Pretouching -/

/-- How far past the write position pages are touched. -/
def pretouchAhead : Nat := 262144

/-- The pages that start at `first` or later and below `target`. -/
def pagesFrom (first target : Nat) : List Nat :=
  (List.range ((target - first + (pageBytes - 1)) / pageBytes)).map fun k => first + k * pageBytes

/-- Touches the pages not yet reached, up to `pretouchAhead` past the write position, and answers
where they start. -/
def pretouch (log : Log) : Except Fault (Log × List Nat) := do
  let target := min (← Checked.add log.writePosition pretouchAhead) log.capacity
  let first := max log.pretouched (log.writePosition / pageBytes * pageBytes)
  let pages := pagesFrom first target
  pages.forM fun page => log.access page 1
  let reached ← Checked.add first (pages.length * pageBytes)
  return ({ log with pretouched := reached }, pages)

end Log

end GatedPipeline
