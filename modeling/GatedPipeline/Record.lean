import GatedPipeline.Word

/-!
Records: a run of words in the log. Word 0 counts the records still to come, word 1 holds the time
of production and word `s + 1` the time at which stage `s` finished the record.
-/

namespace GatedPipeline

/-- How many stages stamp the records of one run. -/
structure Layout where
  stages : Nat
  deriving DecidableEq, Repr

namespace Layout

/-- A layout for at least one and at most `maxStages` stages. -/
def ofStages (stages : Nat) : Except Failure Layout :=
  if stages = 0 then .error (.of .noStages)
  else if maxStages < stages then .error (.of (.tooManyStages stages))
  else .ok ⟨stages⟩

/-- Words of a record: the count of records to come, the production time and one time a stage. -/
def words (layout : Layout) : Nat := layout.stages + 2

def bytes (layout : Layout) : Nat := layout.words * 8

end Layout

/-- A write to one field of a record. With `fail` there is no write and the writer breaks. -/
inductive Edit where
  | remaining (value : Int)
  | stamp (slot : Nat) (time : Word)
  | fail (fault : Fault)
  deriving DecidableEq, Repr

/-- Time slot `k` is word `k + 1` of a record that has `words` words. -/
def timeWord (words slot : Nat) : Except Fault Nat := do
  let index ← Checked.add 1 slot
  if index < words then return index else throw (.indexOutOfBounds words index)

/-- The word of the record that an edit writes, and its new value. -/
def Edit.target (words : Nat) : Edit → Except Fault (Nat × Word)
  | .remaining value =>
      if 0 < words then .ok (0, Word.ofSigned value) else .error (.indexOutOfBounds words 0)
  | .stamp slot time => do return (← timeWord words slot, time)
  | .fail fault => .error fault

structure Record where
  words : List Word
  deriving DecidableEq, Repr

namespace Record

def stages (record : Record) : Nat := record.words.length - 2

def remaining (record : Record) : Int := (record.words.getD 0 0).signed

def isLast (record : Record) : Bool := record.remaining = 0

/-- The time in `slot`; zero if it has not been written. -/
def time (record : Record) (slot : Nat) : Except Fault Word := do
  return record.words.getD (← timeWord record.words.length slot) 0

def times (record : Record) : List Word := record.words.drop 1

def isComplete (record : Record) : Bool := record.times.all (· ≠ 0)

/-- Time of the last stage minus time of production. -/
def latency (record : Record) : Except Fault Int := do
  let last ← record.time record.stages
  let first ← record.time 0
  Checked.signedSub last.signed first.signed

/-- Time from the end of the stage before `slot` to the end of the stage of `slot`. -/
def hop (record : Record) (slot : Nat) : Except Fault Int := do
  let last ← record.time slot
  let first ← record.time (← Checked.sub slot 1)
  Checked.signedSub last.signed first.signed

def describe (record : Record) : String :=
  "RecordView \x7b remaining: " ++ toString record.remaining ++ ", timestamps: " ++
    Text.brackets (record.times.map toString) ++ " \x7d"

end Record

end GatedPipeline
