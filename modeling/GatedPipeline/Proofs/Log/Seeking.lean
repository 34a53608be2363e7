import GatedPipeline.Proofs.Log.Alike

/-!
Seeking. Wherever a cursor has been, a seek takes it in front of the record asked for, as a fresh
cursor would come there by reading, or behind the last record if that one is not there. Such cursors
need not be the same: one that was in front of the record before may have passed the filler in front
of its header, one that starts again has not. But all that comes later answers them the same.

A seek of the record that comes next, which is not committed yet, succeeds as well. The read behind
it finds nothing, and finds the record once its header is stored.
-/

namespace GatedPipeline.Log

namespace Course

/-- The course with the cursor in another place. -/
def placing (course : Course) (cursor : Nat) (tailer : Tailer) : Course :=
  { course with usage := { course.usage with tailers := course.usage.tailers.set cursor tailer } }

section Kept

variable {course : Course} {layout : Layout} {capacity fillers records : Nat}
  (h : course.Kept layout capacity fillers records)

include h

theorem Kept.placing (cursor : Nat) {tailer : Tailer} {index : Nat} (hindex : index ≤ records)
    (hstands : tailer.Stands layout index) :
    (course.placing cursor tailer).Kept layout capacity fillers records :=
  { h with usage := h.usage.setTailer cursor hindex hstands }

/-- In front of the same record a cursor is answered the same, whatever comes. -/
theorem Kept.answers_placing (cursor : Nat) {tailer other : Tailer} {index : Nat}
    (hindex : index ≤ records) (hstands : tailer.Stands layout index)
    (hother : other.Stands layout index) (later : List Step) :
    (course.placing cursor tailer).answers later =
      (course.placing cursor other).answers later := by
  -- The logs and the views are the same, so the answers are, words included.
  have halike : Alike layout True (course.placing cursor other) (course.placing cursor tailer) :=
    ⟨⟨⟨.refl _, rfl, forall₂_set h.usage.level cursor ⟨index, hother, hstands⟩,
      fun _ => ⟨rfl, rfl⟩⟩, rfl⟩, rfl⟩
  exact (halike.run (h.placing cursor hindex hother) (h.placing cursor hindex hstands) later).2
    trivial

variable {cursor : Nat} {tailer : Tailer} (hheld : course.usage.tailers[cursor]? = some tailer)

include hheld

/-- A seek moves its cursor and nothing else. -/
theorem Kept.seek_placing (index : Nat) : course.step (.call (.use (.seek cursor index))) =
    course.placing cursor (tailer.seek course.usage.log index).1 := by
  have hanswer : ∀ other, (course.usage.act (.seek cursor index)).2 ≠ .appended other :=
    (h.usage.act rfl).2.2.2
  have hmoved : (course.usage.act (.seek cursor index)).1 = { course.usage with
      tailers := course.usage.tailers.set cursor (tailer.seek course.usage.log index).1 } := by
    simp only [Usage.act, Usage.seek, hheld]
    rcases tailer.seek course.usage.log index with ⟨after, problem | ⟨⟩⟩ <;> rfl
  have hbars : course.bars (.use (.seek cursor index)) = false := by
    simp [bars, Call.ofAppender, Act.appends]
  simp only [Course.step, hbars, Bool.false_eq_true, if_false, Sessions.call_reads rfl hanswer,
    hmoved]
  rfl

end Kept

/-- What a seek of record `index` does with a cursor, wherever the cursor has been. Only the cursor
moves. One that succeeds is as good as a fresh cursor that has read `index` records, and one that
fails because there are fewer is as good as a fresh cursor that has read them all. -/
structure Seeks (course : Course) (cursor : Nat) (tailer : Tailer) (index : Nat) : Prop where
  alone : course.step (.call (.use (.seek cursor index))) =
    course.placing cursor (tailer.seek course.usage.log index).1
  found : (tailer.seek course.usage.log index).2 = .ok () →
    (tailer.seek course.usage.log index).1.next = index ∧
      (Tailer.drain course.usage.log index .start).2 =
        ((List.range index).map course.usage.log.layout.entryAt, .ok ()) ∧
      ∀ later, (course.step (.call (.use (.seek cursor index)))).answers later =
        (course.placing cursor (Tailer.drain course.usage.log index .start).1).answers later
  missing : ∀ problem, (tailer.seek course.usage.log index).2 = .error problem →
    course.usage.log.entries.length < index ∧
      problem = .of (.notCommitted course.usage.log.name index course.usage.log.entries.length) ∧
      ∀ later, (course.step (.call (.use (.seek cursor index)))).answers later =
        (course.placing cursor
          (Tailer.drain course.usage.log (course.usage.log.capacity / 8 + 1) .start).1).answers later

section Kept

variable {course : Course} {layout : Layout} {capacity fillers records : Nat}
  (h : course.Kept layout capacity fillers records)

include h

/-- The records that a fresh cursor finds are those whose header stands. -/
theorem Kept.entries_length : course.usage.log.entries.length = records := by
  obtain ⟨final, -, hdrain⟩ := Tailer.drain_all h.usage.sound h.usage.framed h.usage.order
    h.usage.fits
  rw [Log.entries, hdrain]
  simp

theorem Kept.committed : course.usage.log.committed = records :=
  committed_eq h.usage.sound h.usage.framed (Nat.le_trans h.usage.order h.usage.fits)

variable {cursor : Nat} {tailer : Tailer} (hheld : course.usage.tailers[cursor]? = some tailer)

include hheld

theorem Kept.seeks (index : Nat) : course.Seeks cursor tailer index := by
  have hstep := h.seek_placing hheld index
  obtain ⟨before, hbefore, hat⟩ := h.usage.tailers tailer (List.mem_of_getElem? hheld)
  obtain rfl := h.usage.layout_eq
  obtain ⟨after, hafter, hseek⟩ := Tailer.seek_moment h.usage.sound h.usage.framed h.usage.order
    h.usage.fits index hbefore hat
  have hlater {other : Tailer} (hother : other.Stands course.usage.log.layout (min index records))
      (later : List Step) : (course.placing cursor after).answers later =
        (course.placing cursor other).answers later :=
    h.answers_placing cursor (Nat.min_le_right index records) hafter hother later
  have hlength := h.entries_length
  constructor
  case alone => exact hstep
  case found =>
    rw [hstep, hseek]
    intro hok
    split_ifs at hok with hthere
    rw [Nat.min_eq_left hthere] at hafter hlater
    obtain ⟨final, hfinal, hdrain⟩ := Tailer.drain_some h.usage.sound h.usage.framed h.usage.order
      h.usage.fits index (by omega) (Tailer.start_stands _)
    rw [Nat.zero_add] at hfinal
    rw [← List.range_eq_range'] at hdrain
    rw [hdrain]
    exact ⟨hafter.next, rfl, hlater hfinal⟩
  case missing =>
    rw [hstep, hseek]
    intro problem hproblem
    split_ifs at hproblem with hthere
    rw [Nat.min_eq_right (by omega)] at hafter hlater
    obtain ⟨final, hfinal, hdrain⟩ := Tailer.drain_all h.usage.sound h.usage.framed h.usage.order
      h.usage.fits
    rw [hdrain, hlength]
    cases hproblem
    exact ⟨by omega, rfl, hlater hfinal⟩

end Kept

/-- Over every course of a log, a seek takes a cursor to where reading from the front takes a fresh
one, as far as any later answer tells. -/
theorem run_seeks {storage after : Storage} {directory name : String} {stages bytes : Nat}
    {layout : Layout} {log : Log} (hlayout : Layout.ofStages stages = .ok layout)
    (hcreate : Log.create storage directory name layout bytes = (after, .ok log))
    (steps : List Step) {cursor : Nat} {tailer : Tailer}
    (hheld : ((begin log).run steps).usage.tailers[cursor]? = some tailer) (index : Nat) :
    ((begin log).run steps).Seeks cursor tailer index := by
  obtain ⟨fillers, records, hkept⟩ := (begin_kept hlayout hcreate).run steps
  exact hkept.seeks hheld index

/-- In the middle of the second append: the cursor has read a record, has passed the filler behind
it, and has sought a record in vain. A fresh one that reads a record stands in front of the
filler. -/
theorem run_seeks_parked :
    let course := (begin ⟨"main", "/main.log", 4096, ⟨1⟩, .zeros, 0, 0, 0, false⟩).run
      [.call .take, .call (.use (.append [1, 100])), .call (.use .tail), .plan [.stamp 0 7],
        .store, .store, .call (.use (.next 0)), .call (.use (.seek 0 5))]
    course.usage.tailers[0]? = some ⟨120, 1⟩ ∧
      (Tailer.drain course.usage.log 1 .start).1 = ⟨88, 1⟩ ∧
      ∀ index, course.Seeks 0 ⟨120, 1⟩ index := by
  intro course
  have hheld : course.usage.tailers[0]? = some ⟨120, 1⟩ := by decide
  exact ⟨hheld, by decide, @run_seeks .empty _ "/" "main" 1 100 ⟨1⟩ _ rfl (Prod.ext rfl rfl) _ 0 _
    hheld⟩

/-- What a seek of record `index` answers and what the read behind it finds. A seek of the record
that comes next succeeds as well, and the read behind it finds nothing yet. -/
structure SeekAnswers (log : Log) (tailer : Tailer) (index : Nat) : Prop where
  committed : index < log.committed → ∃ after, tailer.seek log index = (after, .ok ()) ∧
    (after.read log).2 = .ok (some (log.layout.entryAt index))
  next : index = log.committed → ∃ after, tailer.seek log index = (after, .ok ()) ∧
    (after.read log).2 = .ok none
  missing : log.committed < index → ∃ after, tailer.seek log index =
    (after, .error (.of (.notCommitted log.name index log.committed)))

/-- Over every course of a log, wherever a cursor has been, it may seek every committed record and
the one behind them, and no other. -/
theorem run_seek_answers {storage after : Storage} {directory name : String} {stages bytes : Nat}
    {layout : Layout} {log : Log} (hlayout : Layout.ofStages stages = .ok layout)
    (hcreate : Log.create storage directory name layout bytes = (after, .ok log))
    (steps : List Step) {tailer : Tailer}
    (hheld : tailer ∈ ((begin log).run steps).usage.tailers) (index : Nat) :
    SeekAnswers ((begin log).run steps).usage.log tailer index := by
  obtain ⟨fillers, records, hkept⟩ := (begin_kept hlayout hcreate).run steps
  have hcommitted := hkept.committed
  obtain ⟨hlog, -, hsound, hframed, horder, hfits, htailers, -⟩ := hkept.usage
  obtain ⟨before, hbefore, hat⟩ := htailers tailer hheld
  rw [← hlog] at hat
  obtain ⟨final, hfinal, hseek⟩ := Tailer.seek_moment hsound hframed horder hfits index hbefore hat
  constructor
  case committed =>
    intro hindex
    rw [hcommitted] at hindex
    rw [Nat.min_eq_left (by omega)] at hfinal
    rw [if_pos (by omega)] at hseek
    exact ⟨final, hseek, by rw [Tailer.read_found hsound hframed horder hfits hindex hfinal]⟩
  case next =>
    intro hindex
    rw [hcommitted] at hindex
    subst hindex
    rw [Nat.min_self] at hfinal
    rw [if_pos (Nat.le_refl _)] at hseek
    obtain ⟨parked, -, hread⟩ := Tailer.read_pending hsound hframed horder hfits hfinal
    exact ⟨final, hseek, by rw [hread]⟩
  case missing =>
    intro hindex
    rw [hcommitted] at hindex ⊢
    rw [if_neg (by omega)] at hseek
    exact ⟨final, hseek⟩

/-- Two records, and a third one under way with its filler stored. -/
theorem run_seek_answers_under_way :
    let course := (begin ⟨"main", "/main.log", 4096, ⟨1⟩, .zeros, 0, 0, 0, false⟩).run
      [.call .take, .call (.use (.append [1, 100])), .call (.use (.append [0, 200])),
        .call (.use .tail), .plan [], .store, .call (.use (.seek 0 7))]
    course.usage.log.committed = 2 ∧ course.usage.tailers = [⟨184, 2⟩] ∧
      (Tailer.read course.usage.log (Tailer.seek course.usage.log 1 ⟨184, 2⟩).1).2 =
        .ok (some ⟨1, ⟨128, 3⟩⟩) ∧
      (Tailer.seek course.usage.log 2 ⟨184, 2⟩).2 = .ok () ∧
      (Tailer.seek course.usage.log 3 ⟨184, 2⟩).2 = .error (.of (.notCommitted "main" 3 2)) := by
  intro course
  have hcommitted : course.usage.log.committed = 2 := by decide
  have htailers : course.usage.tailers = [⟨184, 2⟩] := by decide
  have hname : course.usage.log.name = "main" := by decide
  have hlayout : course.usage.log.layout = ⟨1⟩ := by decide
  have hheld : ⟨184, 2⟩ ∈ course.usage.tailers := by rw [htailers]; exact List.mem_singleton_self _
  have hseek : ∀ index, SeekAnswers course.usage.log ⟨184, 2⟩ index :=
    @run_seek_answers .empty _ "/" "main" 1 100 ⟨1⟩ _ rfl (Prod.ext rfl rfl) _ _ hheld
  obtain ⟨first, hfirst, hread⟩ := (hseek 1).committed (by rw [hcommitted]; decide)
  obtain ⟨second, hsecond, -⟩ := (hseek 2).next hcommitted.symm
  obtain ⟨third, hthird⟩ := (hseek 3).missing (by rw [hcommitted]; decide)
  refine ⟨hcommitted, htailers, ?_, congrArg Prod.snd hsecond, ?_⟩
  · rw [hfirst, hread, hlayout]
    rfl
  · rw [hthird, hname, hcommitted]

/-- One record. Record 1 is not committed, and yet a seek of it succeeds; the read behind it finds
nothing. -/
theorem seek_uncommitted_succeeds :
    let course := (begin ⟨"main", "/main.log", 4096, ⟨1⟩, .zeros, 0, 0, 0, false⟩).run
      [.call .take, .call (.use (.append [0, 100])), .call (.use .tail)]
    course.usage.log.committed = 1 ∧
      ¬ (course.answer (.call (.use (.seek 0 1))) = .done ↔ 1 < course.usage.log.committed) ∧
      course.answers [.call (.use (.seek 0 1)), .call (.use (.next 0))] = [.done, .nothing] := by
  decide

end Course

end GatedPipeline.Log
