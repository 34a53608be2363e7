import GatedPipeline.Proofs.Log.Contents

/-!
A log is a list of records. A log in use by one appender, with any number of cursors and of views
held by readers, answers every operation as a plain list of word lists does: appending adds a
record at the end, a cursor is an index into the list, and a view of a record is the index of that
record. Nothing in the list knows of headers, fillers or byte positions.

Fills that break are left out here: they leave words behind in the slot they were given.
-/

namespace GatedPipeline.Log

/-- What is done with a log. Cursors and views are named by the order in which they were made.
`tail` makes a cursor in front of the first record. `edit` writes one word through a view and `look`
reads all of its words. -/
inductive Act where
  | append (words : List Word)
  | appendWith (fill : List Edit)
  | tail
  | next (cursor : Nat)
  | seek (cursor index : Nat)
  | edit (view : Nat) (change : Edit)
  | look (view : Nat)
  | count
  | pretouch

/-- The fill of an append, if there is one, does not break. -/
def Act.Works (words : Nat) : Act → Prop
  | .appendWith fill => ∀ edit ∈ fill, edit.Works words
  | _ => True

instance (words : Nat) (act : Act) : Decidable (act.Works words) :=
  match act with
  | .appendWith fill => inferInstanceAs (Decidable (∀ edit ∈ fill, edit.Works words))
  | .append _ | .tail | .next _ | .seek .. | .edit .. | .look _ | .count | .pretouch =>
      .isTrue trivial

/-- What an act answers. It is `absent` when the cursor or the view it names does not exist. Whoever
is given a `record` holds a view of it from then on. -/
inductive Answer where
  | done
  | refused
  | broken (fault : Fault)
  | absent
  | appended (index : Nat)
  | record (index : Nat) (words : List Word)
  | nothing
  | words (words : List Word)
  | count (records : Nat)
  deriving DecidableEq, Repr

def Answer.ofProblem : Problem → Answer
  | .failed _ => .refused
  | .broken fault => .broken fault

/-- A log with its appender, the cursors made so far and the views handed out so far. -/
structure Usage where
  log : Log
  appender : Appender
  tailers : List Tailer
  views : List View

namespace Usage

def append (usage : Usage) (words : List Word) : Usage × Answer :=
  match usage.log.append usage.appender words with
  | (log, appender, .ok index) =>
      ({ usage with log := log, appender := appender }, .appended index)
  | (log, appender, .error problem) =>
      ({ usage with log := log, appender := appender }, .ofProblem problem)

/-- The fill hands out a view of the record it writes. -/
def appendWith (usage : Usage) (fill : List Edit) : Usage × Answer :=
  let view := (usage.log.slot usage.appender).toOption.map fun slot =>
    (⟨slot.body, usage.log.layout.words⟩ : View)
  match usage.log.appendWith usage.appender fill with
  | (log, appender, .ok index) =>
      ({ usage with log := log, appender := appender, views := usage.views ++ view.toList },
        .appended index)
  | (log, appender, .error problem) =>
      ({ usage with log := log, appender := appender }, .ofProblem problem)

/-- A read hands out a view of the record it finds. -/
def next (usage : Usage) (cursor : Nat) : Usage × Answer :=
  match usage.tailers[cursor]? with
  | none => (usage, .absent)
  | some tailer =>
      match tailer.read usage.log with
      | (after, .error fault) =>
          ({ usage with tailers := usage.tailers.set cursor after }, .broken fault)
      | (after, .ok none) => ({ usage with tailers := usage.tailers.set cursor after }, .nothing)
      | (after, .ok (some entry)) =>
          ({ usage with
              tailers := usage.tailers.set cursor after, views := usage.views ++ [entry.view] },
            .record entry.index (usage.log.record entry.view).words)

def seek (usage : Usage) (cursor index : Nat) : Usage × Answer :=
  match usage.tailers[cursor]? with
  | none => (usage, .absent)
  | some tailer =>
      match tailer.seek usage.log index with
      | (after, .error problem) =>
          ({ usage with tailers := usage.tailers.set cursor after }, .ofProblem problem)
      | (after, .ok ()) => ({ usage with tailers := usage.tailers.set cursor after }, .done)

def edit (usage : Usage) (view : Nat) (change : Edit) : Usage × Answer :=
  match usage.views[view]? with
  | none => (usage, .absent)
  | some view =>
      match usage.log.edit view change with
      | (log, .error fault) => ({ usage with log := log }, .broken fault)
      | (log, .ok ()) => ({ usage with log := log }, .done)

def look (usage : Usage) (view : Nat) : Answer :=
  match usage.views[view]? with
  | none => .absent
  | some view => .words (usage.log.record view).words

def pretouched (usage : Usage) : Except Fault (Log × List Nat) → Usage × Answer
  | .error fault => (usage, .broken fault)
  | .ok (log, _) => ({ usage with log := log }, .done)

def pretouch (usage : Usage) : Usage × Answer := usage.pretouched usage.log.pretouch

def act (usage : Usage) : Act → Usage × Answer
  | .append words => usage.append words
  | .appendWith fill => usage.appendWith fill
  | .tail => ({ usage with tailers := usage.tailers ++ [.start] }, .done)
  | .next cursor => usage.next cursor
  | .seek cursor index => usage.seek cursor index
  | .edit view change => usage.edit view change
  | .look view => (usage, usage.look view)
  | .count => (usage, .count usage.log.appended)
  | .pretouch => usage.pretouch

def run (usage : Usage) : List Act → Usage × List Answer
  | [] => (usage, [])
  | first :: rest =>
      let (usage, answer) := usage.act first
      let (usage, answers) := usage.run rest
      (usage, answer :: answers)

theorem log_append (usage : Usage) (given : List Word) :
    (usage.append given).1.log = (usage.log.append usage.appender given).1 := by
  unfold Usage.append
  rcases usage.log.append usage.appender given with ⟨log, appender, problem | index⟩ <;> rfl

theorem log_appendWith (usage : Usage) (fill : List Edit) :
    (usage.appendWith fill).1.log = (usage.log.appendWith usage.appender fill).1 := by
  unfold Usage.appendWith
  rcases usage.log.appendWith usage.appender fill with ⟨log, appender, problem | index⟩ <;> rfl

theorem append_answer (usage : Usage) (given : List Word) : (usage.append given).2 =
    match (usage.log.append usage.appender given).2.2 with
    | .ok index => .appended index
    | .error problem => .ofProblem problem := by
  unfold Usage.append
  rcases usage.log.append usage.appender given with ⟨log, appender, problem | index⟩ <;> rfl

theorem appendWith_answer (usage : Usage) (fill : List Edit) : (usage.appendWith fill).2 =
    match (usage.log.appendWith usage.appender fill).2.2 with
    | .ok index => .appended index
    | .error problem => .ofProblem problem := by
  unfold Usage.appendWith
  rcases usage.log.appendWith usage.appender fill with ⟨log, appender, problem | index⟩ <;> rfl

end Usage

/-- A plain list of records, each a list of `width` words, that can grow to `room` records. A cursor
is the index of its next record and a view the index of its record. -/
structure Ledger where
  width : Nat
  room : Nat
  records : List (List Word)
  cursors : List Nat
  views : List Nat

namespace Ledger

/-- The record that a fill makes of a zeroed one. -/
def filled (width : Nat) (fill : List Edit) : List Word :=
  (List.range width).map fun word => (Edit.written width fill word).getD 0

def append (ledger : Ledger) (words : List Word) : Ledger × Answer :=
  if ledger.width < words.length ∨ ledger.room ≤ ledger.records.length then (ledger, .refused)
  else
    let record := words ++ List.replicate (ledger.width - words.length) 0
    ({ ledger with records := ledger.records ++ [record] }, .appended ledger.records.length)

def appendWith (ledger : Ledger) (fill : List Edit) : Ledger × Answer :=
  if ledger.room ≤ ledger.records.length then (ledger, .refused)
  else
    ({ ledger with
        records := ledger.records ++ [filled ledger.width fill],
        views := ledger.views ++ [ledger.records.length] },
      .appended ledger.records.length)

def next (ledger : Ledger) (cursor : Nat) : Ledger × Answer :=
  match ledger.cursors[cursor]? with
  | none => (ledger, .absent)
  | some index =>
      match ledger.records[index]? with
      | none => (ledger, .nothing)
      | some record =>
          ({ ledger with
              cursors := ledger.cursors.set cursor (index + 1), views := ledger.views ++ [index] },
            .record index record)

/-- Seeking a record that is not there ends behind the last one. -/
def seek (ledger : Ledger) (cursor index : Nat) : Ledger × Answer :=
  match ledger.cursors[cursor]? with
  | none => (ledger, .absent)
  | some _ =>
      ({ ledger with cursors := ledger.cursors.set cursor (min index ledger.records.length) },
        if index ≤ ledger.records.length then .done else .refused)

def edit (ledger : Ledger) (view : Nat) (change : Edit) : Ledger × Answer :=
  match ledger.views[view]? with
  | none => (ledger, .absent)
  | some index =>
      match change.target ledger.width with
      | .error fault => (ledger, .broken fault)
      | .ok (word, value) =>
          ({ ledger with records := ledger.records.modify index (·.set word value) }, .done)

def look (ledger : Ledger) (view : Nat) : Answer :=
  match ledger.views[view]? with
  | none => .absent
  | some index => .words (ledger.records.getD index [])

def act (ledger : Ledger) : Act → Ledger × Answer
  | .append words => ledger.append words
  | .appendWith fill => ledger.appendWith fill
  | .tail => ({ ledger with cursors := ledger.cursors ++ [0] }, .done)
  | .next cursor => ledger.next cursor
  | .seek cursor index => ledger.seek cursor index
  | .edit view change => ledger.edit view change
  | .look view => (ledger, ledger.look view)
  | .count => (ledger, .count ledger.records.length)
  | .pretouch => (ledger, .done)

def run (ledger : Ledger) : List Act → Ledger × List Answer
  | [] => (ledger, [])
  | first :: rest =>
      let (ledger, answer) := ledger.act first
      let (ledger, answers) := ledger.run rest
      (ledger, answer :: answers)

/-- A word of a record of the list; zero where the list has no such word. -/
def wordAt (records : List (List Word)) (index word : Nat) : Word :=
  (records.getD index []).getD word 0

theorem wordAt_append (records : List (List Word)) (record : List Word) (index word : Nat) :
    wordAt (records ++ [record]) index word =
      if index = records.length then record.getD word 0 else wordAt records index word := by
  simp only [wordAt, List.getD_eq_getElem?_getD, List.getElem?_append, List.getElem?_singleton]
  by_cases hlast : index = records.length
  · simp [hlast]
  · by_cases hbefore : index < records.length
    · simp [hbefore, hlast]
    · have hbeyond : ¬ index - records.length = 0 := by omega
      simp [hbefore, hlast, hbeyond]

theorem wordAt_end (records : List (List Word)) (word : Nat) :
    wordAt records records.length word = 0 := by
  simp [wordAt, List.getD_eq_getElem?_getD]

theorem wordAt_modify {records : List (List Word)} {index word : Nat}
    (hindex : index < records.length) (hword : word < (records.getD index []).length)
    (value : Word) (other otherWord : Nat) :
    wordAt (records.modify index (·.set word value)) other otherWord =
      if other = index ∧ otherWord = word then value else wordAt records other otherWord := by
  simp only [wordAt, List.getD_eq_getElem?_getD, List.getElem?_modify] at *
  rw [List.getElem?_eq_getElem hindex] at hword
  by_cases hsame : other = index
  · subst hsame
    rw [List.getElem?_eq_getElem hindex]
    simp only [Option.getD_some] at hword
    by_cases hat : otherWord = word
    · simp [hat, hword]
    · simp [hat, Ne.symm hat]
  · simp [hsame, Ne.symm hsame]

end Ledger

end GatedPipeline.Log
