import GatedPipeline.Log.Geometry
import GatedPipeline.Log.Words
import GatedPipeline.Storage

/-!
A record log: one file of fixed size that a single appender fills from the front and any number
of tailers read. Records stay where they were written, and whoever holds a view of one reads and
writes its words in place.
-/

namespace GatedPipeline

/-- An append-only log in a file of `capacity` bytes. The write position is the end of the last
committed entry, `pretouched` is the first page that no pretouch has reached, and `appended` counts
the records committed by the latest appender. -/
structure Log where
  name : String
  path : String
  capacity : Nat
  layout : Layout
  words : Words
  writePosition : Nat
  pretouched : Nat
  appended : Nat
  appenderTaken : Bool
  deriving DecidableEq, Repr

/-- Where a record's words stand: the position of its body and how many words it has. -/
structure View where
  body : Nat
  words : Nat
  deriving DecidableEq, Repr

namespace Log

/-- Creates the log file `name` with room for `bytes`, in a directory that has no log of that
name. The file is made, given its size and mapped, in this order; when the system refuses one of
the last two, the file stays behind. -/
def create (storage : Storage) (directory name : String) (layout : Layout) (bytes : Nat)
    (backing : Storage.Backing := .sound) : Storage × Except Problem Log :=
  match capacityFor bytes with
  | .error fault => (storage, .error (.broken fault))
  | .ok capacity =>
      let path := Storage.join directory (name ++ ".log")
      match backing.grant (storage.createNew path (.log 0)) with
      | .error refusal => (storage, .error (.failed ⟨[.creatingLog path], .storage refusal⟩))
      | .ok created =>
          match created.resize path capacity backing.sizing with
          | .error refusal =>
              (created, .error (.failed ⟨[.sizingLog path capacity], .storage refusal⟩))
          | .ok sized =>
              match backing.mapping with
              | .refused refusal =>
                  (sized, .error (.failed ⟨[.mappingLog path], .storage refusal⟩))
              | .null => (sized, .error (.of .logAtNull))
              | .mapped => (sized, .ok ⟨name, path, capacity, layout, .zeros, 0, 0, 0, false⟩)

/-- Whether so many words at a position lie in the file, on word boundaries. -/
def access (log : Log) (position words : Nat) : Except Fault Unit := do
  let stop ← Checked.add position (words * 8)
  if position % 8 = 0 ∧ stop ≤ log.capacity then return () else
    throw (.misplacedAccess position words)

def word (log : Log) (position : Nat) : Word := log.words.get (position / 8)

def setWord (log : Log) (position : Nat) (value : Word) : Log :=
  match log with
  | ⟨name, path, capacity, layout, words, writePosition, pretouched, appended, appenderTaken⟩ =>
      ⟨name, path, capacity, layout, words.set (position / 8) value, writePosition, pretouched,
        appended, appenderTaken⟩

def record (log : Log) (view : View) : Record := ⟨log.words.slice (view.body / 8) view.words⟩

def edit (log : Log) (view : View) (edit : Edit) : Log × Except Fault Unit :=
  match edit.target view.words with
  | .ok (index, value) => (log.setWord (view.body + index * 8) value, .ok ())
  | .error fault => (log, .error fault)

def describe (log : Log) : String :=
  "RecordLog \x7b name: " ++ Text.quote log.name ++ ", path: " ++ Text.quote log.path ++
    ", capacity: " ++ toString log.capacity ++ ", appended: " ++ toString log.appended ++ " \x7d"

end Log

end GatedPipeline
