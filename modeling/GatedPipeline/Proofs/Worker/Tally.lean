import GatedPipeline.Worker.Crew

/-!
What the workers of a run have done, counted: the times stamped into each slot, in the order of the
records, and how many records each stage has completed. The workers' turns do one of three things
to a tally, produce, stamp or complete, and each only at a moment when the stages stay in order.
-/

namespace GatedPipeline.Worker

/-- What the workers have done so far, without the log and the gates in which it shows. For each
slot it has the times that were stamped, slot 0 being that of production and slot `s` that of stage
`s`, and for each stage the number of records it has completed. -/
structure Tally where
  times : Nat → List Nat
  completed : Nat → Nat

namespace Tally

def start : Tally := ⟨fun _ => [], fun _ => 0⟩

def stamped (tally : Tally) (slot : Nat) : Nat := (tally.times slot).length

/-- How many records a worker has let through: the producer those it has committed, a stage those
it has completed. -/
def through (tally : Tally) : (worker : Nat) → Nat
  | 0 => tally.stamped 0
  | number + 1 => tally.completed (number + 1)

def stamp (tally : Tally) (slot time : Nat) : Tally :=
  { tally with times := fun other =>
      if other = slot then tally.times slot ++ [time] else tally.times other }

def complete (tally : Tally) (stage : Nat) : Tally :=
  { tally with completed := fun other =>
      if other = stage then tally.completed stage + 1 else tally.completed other }

@[simp] theorem stamped_stamp (tally : Tally) (slot time other : Nat) :
    (tally.stamp slot time).stamped other =
      if other = slot then tally.stamped slot + 1 else tally.stamped other := by
  simp only [stamped, stamp]
  split <;> simp

@[simp] theorem stamped_complete (tally : Tally) (stage other : Nat) :
    (tally.complete stage).stamped other = tally.stamped other := rfl

@[simp] theorem completed_stamp (tally : Tally) (slot time other : Nat) :
    (tally.stamp slot time).completed other = tally.completed other := rfl

@[simp] theorem completed_complete (tally : Tally) (stage other : Nat) :
    (tally.complete stage).completed other =
      if other = stage then tally.completed stage + 1 else tally.completed other := rfl

theorem through_pos (tally : Tally) {stage : Nat} (h : 1 ≤ stage) :
    tally.through stage = tally.completed stage := by
  cases stage with
  | zero => omega
  | succ stage => rfl

/-- The stages are in order: each stamps only what the worker before it has let through, and is at
most one record ahead of what it has completed itself. -/
structure Valid (tally : Tally) (stages count : Nat) : Prop where
  produced : tally.stamped 0 ≤ count
  order : ∀ stage, 1 ≤ stage → stage ≤ stages → tally.stamped stage ≤ tally.through (stage - 1)
  own : ∀ stage, 1 ≤ stage → stage ≤ stages → tally.completed stage ≤ tally.stamped stage ∧
    tally.stamped stage ≤ tally.completed stage + 1

theorem start_valid (stages count : Nat) : start.Valid stages count :=
  ⟨Nat.zero_le _, fun _ _ _ => Nat.zero_le _, fun _ _ _ => ⟨Nat.zero_le _, Nat.zero_le _⟩⟩

/-- What one turn of a worker may do. It can leave the tally alone, stamp the production of another
record, or stamp or complete the record of its stage. A stage stamps only what the worker before it
has let through, and completes only what it has stamped. -/
inductive Turn (stages count : Nat) (role : Role) (now : Nat) (tally : Tally) : Tally → Prop where
  | rest : Turn stages count role now tally tally
  | produce (producer : role = .producer) (more : tally.stamped 0 < count) :
      Turn stages count role now tally (tally.stamp 0 now)
  | stamp {stage : Nat} (worker : role = .stage stage) (first : 1 ≤ stage) (last : stage ≤ stages)
      (own : tally.stamped stage = tally.completed stage)
      (let_through : tally.stamped stage < tally.through (stage - 1)) :
      Turn stages count role now tally (tally.stamp stage now)
  | complete {stage : Nat} (worker : role = .stage stage) (first : 1 ≤ stage)
      (last : stage ≤ stages) (own : tally.stamped stage = tally.completed stage + 1) :
      Turn stages count role now tally (tally.complete stage)

section Valid

variable {stages count now : Nat} {role : Role} {tally after : Tally}
  (h : tally.Valid stages count)

include h

theorem Valid.turn (hturn : Turn stages count role now tally after) :
    after.Valid stages count := by
  cases hturn with
  | rest => exact h
  | produce _ more =>
      refine ⟨by simp; omega, ?_, ?_⟩
      · intro stage hfirst hlast
        have horder := h.order stage hfirst hlast
        rw [stamped_stamp, if_neg (by omega)]
        rcases Nat.eq_or_lt_of_le hfirst with rfl | hlater
        · simp only [through, Nat.sub_self, stamped_stamp, if_true] at horder ⊢
          omega
        · rw [through_pos _ (by omega)] at horder ⊢
          exact horder
      · intro stage hfirst hlast
        rw [stamped_stamp, if_neg (by omega)]
        exact h.own stage hfirst hlast
  | @stamp stage _ first last own let_through =>
      refine ⟨by rw [stamped_stamp, if_neg (by omega)]; exact h.produced, ?_, ?_⟩
      · intro other hfirst hlast
        have horder := h.order other hfirst hlast
        have hthrough : (tally.stamp stage now).through (other - 1) =
            tally.through (other - 1) := by
          rcases Nat.eq_or_lt_of_le hfirst with rfl | hlater
          · simp only [through, Nat.sub_self, stamped_stamp]
            rw [if_neg (by omega)]
          · rw [through_pos _ (by omega), through_pos _ (by omega), completed_stamp]
        rw [hthrough, stamped_stamp]
        split
        · rename_i hsame
          subst hsame
          omega
        · exact horder
      · intro other hfirst hlast
        have hown := h.own other hfirst hlast
        rw [completed_stamp, stamped_stamp]
        split
        · rename_i hsame
          subst hsame
          omega
        · exact hown
  | @complete stage _ first last own =>
      refine ⟨h.produced, ?_, ?_⟩
      · intro other hfirst hlast
        have horder := h.order other hfirst hlast
        rw [stamped_complete]
        rcases Nat.eq_or_lt_of_le hfirst with rfl | hlater
        · exact horder
        · rw [through_pos _ (by omega)] at horder ⊢
          rw [completed_complete]
          split
          · rename_i hsame
            rw [hsame] at horder
            omega
          · exact horder
      · intro other hfirst hlast
        have hown := h.own other hfirst hlast
        rw [stamped_complete, completed_complete]
        split
        · rename_i hsame
          subst hsame
          omega
        · exact hown

omit h in
/-- What one worker's turn leaves alone: what the other workers have done. -/
theorem Turn.others (hturn : Turn stages count role now tally after) :
    (∀ slot, tally.stamped slot ≤ after.stamped slot) ∧
      (∀ worker, tally.through worker ≤ after.through worker) ∧
      (role ≠ .producer → after.stamped 0 = tally.stamped 0) ∧
      ∀ stage, 1 ≤ stage → role ≠ .stage stage →
        after.stamped stage = tally.stamped stage ∧
          after.completed stage = tally.completed stage := by
  have hstamp : ∀ slot, (∀ other, tally.stamped other ≤ (tally.stamp slot now).stamped other) ∧
      ∀ worker, tally.through worker ≤ (tally.stamp slot now).through worker := by
    intro slot
    refine ⟨?_, ?_⟩
    · intro other
      rw [stamped_stamp]
      split
      · rename_i hsame
        rw [hsame]
        omega
      · exact Nat.le_refl _
    · intro worker
      cases worker with
      | zero =>
          simp only [through, stamped_stamp]
          split
          · rename_i hsame
            rw [← hsame]
            omega
          · exact Nat.le_refl _
      | succ worker => exact Nat.le_refl _
  cases hturn with
  | rest =>
      exact ⟨fun _ => Nat.le_refl _, fun _ => Nat.le_refl _, fun _ => rfl,
        fun _ _ _ => ⟨rfl, rfl⟩⟩
  | produce producer more =>
      refine ⟨(hstamp 0).1, (hstamp 0).2, fun hother => absurd producer hother,
        fun stage hfirst _ => ⟨?_, rfl⟩⟩
      rw [stamped_stamp, if_neg (by omega)]
  | @stamp stage worker first last own let_through =>
      refine ⟨(hstamp stage).1, (hstamp stage).2, ?_, fun other hfirst hother => ⟨?_, rfl⟩⟩
      · intro _
        rw [stamped_stamp, if_neg (by omega)]
      · rw [stamped_stamp, if_neg (show other ≠ stage from fun hsame => hother (hsame ▸ worker))]
  | @complete stage worker first last own =>
      refine ⟨fun _ => Nat.le_refl _, ?_, fun _ => rfl,
        fun other hfirst hother => ⟨rfl, ?_⟩⟩
      · intro other
        cases other with
        | zero => exact Nat.le_refl _
        | succ other =>
            simp only [through, completed_complete]
            split
            · rename_i hsame
              rw [hsame]
              omega
            · exact Nat.le_refl _
      · have hne : other ≠ stage := fun hsame => hother (hsame ▸ worker)
        rw [completed_complete, if_neg hne]

/-- A worker has let through nothing that has no time in its slot. -/
theorem Valid.through_le {worker : Nat} (hlast : worker ≤ stages) :
    tally.through worker ≤ tally.stamped worker := by
  cases worker with
  | zero => exact Nat.le_refl _
  | succ number => exact (h.own (number + 1) (by omega) hlast).1

/-- A stage has stamped no more than the worker before it. -/
theorem Valid.stamped_step {stage : Nat} (hfirst : 1 ≤ stage) (hlast : stage ≤ stages) :
    tally.stamped stage ≤ tally.stamped (stage - 1) :=
  Nat.le_trans (h.order stage hfirst hlast) (h.through_le (by omega))

theorem Valid.stamped_mono {slot stage : Nat} (hslot : slot ≤ stage) (hlast : stage ≤ stages) :
    tally.stamped stage ≤ tally.stamped slot := by
  induction stage with
  | zero => exact Nat.le_zero.mp hslot ▸ Nat.le_refl _
  | succ stage ih =>
      rcases Nat.eq_or_lt_of_le hslot with rfl | hbefore
      · exact Nat.le_refl _
      · exact Nat.le_trans (h.stamped_step (by omega) hlast) (ih (by omega) (by omega))

end Valid

end Tally

end GatedPipeline.Worker
