import Mathlib.Data.ENat.Lattice
import GatedPipeline.Pause
import GatedPipeline.Proofs.Arithmetic

/-!
A wait with a bounded pause. Three things can end it: its attempt answers, the run is found aborted,
or the pause has counted one miss too many. The one that comes first decides how the wait ends; at
one and the same attempt an answer comes before the abort, and the abort before the pause. An answer
gives the pause its full budget back, and nothing else does.
-/

namespace GatedPipeline.Pause

/-- A bounded pause goes on until its limit. -/
theorem afterMiss_bounded {limit polls : Nat} (hsmall : polls + 1 < wordLimit) (now : Nat) :
    (bounded limit polls).afterMiss false now =
      if limit < polls + 1 then (.bounded limit (polls + 1), .error (.of (.noProgress limit)))
      else (.bounded limit (polls + 1), .ok ()) := by
  simp only [afterMiss, Bool.false_eq_true, if_false, pause, Checked.add_ok hsmall]

/-! ### Waits -/

/-- A wait that has made so many attempts makes more, as many as the ending says in all, and then
ends so. -/
def Ends {α : Type} (world : World α) (calls : Nat) (pause : Pause) (ending : Ending α) : Prop :=
  calls < ending.calls ∧ ∀ fuel,
    poll world fuel calls pause = if calls + fuel < ending.calls then none else some ending

section Ends

variable {α : Type} {world : World α} {calls : Nat} {pause after : Pause} {ending : Ending α}

theorem Ends.of_last (hpoll : ∀ fuel, poll world (fuel + 1) calls pause = some ending)
    (hlast : ending.calls = calls + 1) : Ends world calls pause ending := by
  refine ⟨by omega, fun fuel => ?_⟩
  cases fuel with
  | zero =>
      rw [if_pos (by omega)]
      rfl
  | succ fuel => rw [if_neg (by omega), hpoll fuel]

theorem Ends.answered {value : α} (hanswer : world.attempt (calls + 1) = some value) :
    Ends world calls pause ⟨calls + 1, pause.reset, .ok value⟩ :=
  .of_last (fun fuel => by simp only [poll, hanswer]) rfl

variable (hmissed : world.attempt (calls + 1) = none)

include hmissed

theorem Ends.failed {problem : Problem}
    (hpause : pause.afterMiss (world.aborted (calls + 1)) (world.clock (calls + 1)) =
      (after, .error problem)) : Ends world calls pause ⟨calls + 1, after, .error problem⟩ :=
  .of_last (fun fuel => by simp only [poll, hmissed, hpause]) rfl

theorem Ends.missed
    (hpause : pause.afterMiss (world.aborted (calls + 1)) (world.clock (calls + 1)) =
      (after, .ok ())) (h : Ends world (calls + 1) after ending) :
    Ends world calls pause ending := by
  obtain ⟨hmore, hrest⟩ := h
  refine ⟨by omega, fun fuel => ?_⟩
  cases fuel with
  | zero => exact (if_pos (by omega)).symm
  | succ fuel =>
      simp only [poll, hmissed, hpause, hrest fuel]
      congr 1
      rw [Nat.add_assoc, Nat.add_comm 1 fuel]

end Ends

/-! ### What ends a wait -/

/-- When the attempt of a wait first answers, and from which attempt on the run is found aborted.
Attempts count from one, so that zero is before the first of them, and `⊤` is never. -/
structure World.Times {α : Type} (world : World α) (answer abort : ℕ∞) : Prop where
  counted : 1 ≤ answer
  missed : ∀ call : Nat, 1 ≤ call → call < answer → world.attempt call = none
  answered : ∀ call : Nat, call = answer → (world.attempt call).isSome
  aborted : ∀ call : Nat, 1 ≤ call → (world.aborted call = true ↔ abort ≤ call)

/-- The attempt at which a bounded pause that has counted so many misses gives up. -/
def budget (limit polls : Nat) : Nat := max 1 (limit + 1 - polls)

/-- How a wait with a bounded pause ends whose attempt answers and whose run is aborted when the two
times say. By `again` the first miss of the wait that follows a spent budget ends it, whatever that
wait is like. -/
structure Settles {α : Type} (world : World α) (limit polls : Nat) (answer abort : ℕ∞) : Prop where
  answered : answer ≤ max abort 1 → answer ≤ budget limit polls →
    ∃ (calls : Nat) (value : α), calls = answer ∧ world.attempt calls = some value ∧
      Ends world 0 (.bounded limit polls) ⟨calls, boundedBy limit, .ok value⟩
  aborted : ¬ (answer ≤ max abort 1 ∧ answer ≤ budget limit polls) →
    max abort 1 ≤ budget limit polls → ∃ calls : Nat, calls = max abort 1 ∧
      Ends world 0 (.bounded limit polls)
        ⟨calls, .bounded limit (polls + (calls - 1)), .error (.of .aborted)⟩
  spent : ¬ (answer ≤ max abort 1 ∧ answer ≤ budget limit polls) →
    ¬ max abort 1 ≤ budget limit polls → Ends world 0 (.bounded limit polls)
      ⟨budget limit polls, .bounded limit (polls + budget limit polls),
        .error (.of (.noProgress limit))⟩
  again : ∀ next : World α, next.attempt 1 = none → ∃ after problem,
    Ends next 0 (.bounded limit (polls + budget limit polls)) ⟨1, after, .error problem⟩ ∧
      (next.aborted 1 = true → problem = .of .aborted) ∧
      (next.aborted 1 = false → polls + budget limit polls + 1 < wordLimit →
        problem = .of (.noProgress limit))

section Settles

variable {α : Type} {world : World α} {limit polls : Nat} {answer abort : ℕ∞}

/-- Within its budget a bounded pause only counts the misses. -/
theorem Ends.of_misses (calls : Nat) (hlimit : limit < wordLimit)
    (hfew : calls < budget limit polls) (hmissed : ∀ call, 1 ≤ call → call ≤ calls →
      world.attempt call = none ∧ world.aborted call = false) {ending : Ending α}
    (h : Ends world calls (.bounded limit (polls + calls)) ending) :
    Ends world 0 (.bounded limit polls) ending := by
  simp only [budget] at hfew
  induction calls with
  | zero => exact h
  | succ calls ih =>
      obtain ⟨hmiss, hrunning⟩ := hmissed (calls + 1) (Nat.le_add_left 1 calls) (Nat.le_refl _)
      refine ih (by omega) (fun call hfirst hlast => hmissed call hfirst (by omega))
        (.missed hmiss ?_ h)
      rw [hrunning, afterMiss_bounded (by omega), if_neg (by omega), Nat.add_assoc]

/-- The miss that spends the budget ends the wait. -/
theorem Ends.of_budget (hsmall : max limit polls + 1 < wordLimit)
    (hmissed : ∀ call, 1 ≤ call → call ≤ budget limit polls →
      world.attempt call = none ∧ world.aborted call = false) :
    Ends world 0 (.bounded limit polls) ⟨budget limit polls,
      .bounded limit (polls + budget limit polls), .error (.of (.noProgress limit))⟩ := by
  obtain ⟨calls, hcalls⟩ : ∃ calls, budget limit polls = calls + 1 :=
    Nat.exists_eq_add_of_le' (Nat.le_max_left 1 (limit + 1 - polls))
  rw [hcalls] at hmissed ⊢
  obtain ⟨hmiss, hrunning⟩ := hmissed (calls + 1) (Nat.le_add_left 1 calls) (Nat.le_refl _)
  refine .of_misses calls (by omega) (by omega)
    (fun call hfirst hlast => hmissed call hfirst (by omega)) (.failed hmiss ?_)
  simp only [budget] at hcalls
  rw [hrunning, afterMiss_bounded (by omega), if_pos (by omega), Nat.add_assoc]

variable (h : world.Times answer abort)

include h

/-- Before either of the two times nothing happens at an attempt. -/
theorem World.Times.quiet {call : Nat} (hfirst : 1 ≤ call) (hanswer : call < answer)
    (habort : call < max abort 1) : world.attempt call = none ∧ world.aborted call = false := by
  refine ⟨h.missed call hfirst hanswer, Bool.eq_false_iff.mpr fun haborted => ?_⟩
  have hcall : max abort 1 ≤ call :=
    max_le ((h.aborted call hfirst).mp haborted) (by exact_mod_cast hfirst)
  exact absurd hcall (not_le.mpr habort)

end Settles

/-- The first of the three events decides how a wait with a bounded pause ends. -/
theorem bounded_settles {α : Type} {world : World α} {limit polls : Nat} {answer abort : ℕ∞}
    (h : world.Times answer abort) (hsmall : max limit polls + 1 < wordLimit) :
    Settles world limit polls answer abort := by
  constructor
  case answered =>
    intro habort hbudget
    lift answer to ℕ using ne_top_of_le_ne_top (ENat.natCast_ne_top _) hbudget
    have hcounted : 1 ≤ answer := by exact_mod_cast h.counted
    obtain ⟨calls, rfl⟩ := Nat.exists_eq_add_of_le' hcounted
    obtain ⟨value, hvalue⟩ := Option.isSome_iff_exists.mp (h.answered (calls + 1) rfl)
    refine ⟨calls + 1, value, rfl, hvalue, ?_⟩
    refine .of_misses calls (by omega) (by exact_mod_cast hbudget) ?_ (.answered hvalue)
    intro call hfirst hlast
    have hbefore : (call : ℕ∞) < (calls + 1 : ℕ) := by exact_mod_cast Nat.lt_succ_of_le hlast
    exact h.quiet hfirst hbefore (hbefore.trans_le habort)
  case aborted =>
    intro hnot hbudget
    obtain ⟨last, hlast⟩ := ENat.ne_top_iff_exists.mp
      (ne_top_of_le_ne_top (ENat.natCast_ne_top _) hbudget)
    have hfirst : 1 ≤ last := by exact_mod_cast hlast ▸ le_max_right abort 1
    have hanswer : (last : ℕ∞) < answer :=
      not_le.mp fun hle => hnot ⟨hlast ▸ hle, hle.trans (hlast ▸ hbudget)⟩
    have haborted : world.aborted last = true :=
      (h.aborted last hfirst).mpr (hlast ▸ le_max_left abort 1)
    obtain ⟨calls, rfl⟩ := Nat.exists_eq_add_of_le' hfirst
    rw [← hlast] at hbudget
    refine ⟨calls + 1, hlast, ?_⟩
    refine .of_misses calls (by omega) (by exact_mod_cast hbudget) ?_
      (.failed (h.missed (calls + 1) hfirst hanswer) ?_)
    · intro call hcall hbefore
      have hlt : (call : ℕ∞) < (calls + 1 : ℕ) := by exact_mod_cast Nat.lt_succ_of_le hbefore
      exact h.quiet hcall (hlt.trans hanswer) (hlast ▸ hlt)
    · rw [haborted]
      rfl
  case spent =>
    intro hnot hbudget
    rw [not_le] at hbudget
    have hanswer : (budget limit polls : ℕ∞) < answer :=
      not_le.mp fun hle => hnot ⟨hle.trans hbudget.le, hle⟩
    refine .of_budget hsmall fun call hfirst hlast => ?_
    have hle : (call : ℕ∞) ≤ budget limit polls := by exact_mod_cast hlast
    exact h.quiet hfirst (hle.trans_lt hanswer) (hle.trans_lt hbudget)
  case again =>
    intro next hmiss
    have hspent : limit < polls + budget limit polls + 1 := by
      simp only [budget]
      omega
    cases haborted : next.aborted 1 with
    | true =>
        refine ⟨.bounded limit (polls + budget limit polls), .of .aborted, .failed hmiss ?_,
          fun _ => rfl, nofun⟩
        rw [haborted]
        rfl
    | false =>
        by_cases hmore : polls + budget limit polls + 1 < wordLimit
        · refine ⟨.bounded limit (polls + budget limit polls + 1), .of (.noProgress limit),
            .failed hmiss ?_, nofun, fun _ _ => rfl⟩
          rw [haborted, afterMiss_bounded hmore, if_pos hspent]
        · refine ⟨.bounded limit (polls + budget limit polls), .broken .addOverflow,
            .failed hmiss ?_, nofun, fun _ h => absurd h hmore⟩
          rw [haborted]
          simp only [afterMiss, pause, Checked.add_over hmore, Bool.false_eq_true, if_false]

/-- The attempt that answers is the one during which the run is aborted, and the last one that the
pause would let pass; then the same with a pause whose budget is long spent, and with a run that is
aborted at the last miss. -/
theorem bounded_settles_at_once :
    let answering : World Nat := ⟨fun call => if call = 3 then some 7 else none, (3 ≤ ·), id⟩
    let silent : World Nat := ⟨fun _ => none, (4 ≤ ·), id⟩
    answering.Times 3 3 ∧ silent.Times ⊤ 4 ∧
      Ends answering 0 (.bounded 3 1) ⟨3, .bounded 3 0, .ok 7⟩ ∧
      Ends answering 0 (.bounded 3 5) ⟨1, .bounded 3 6, .error (.of (.noProgress 3))⟩ ∧
      Ends silent 0 (.bounded 3 0) ⟨4, .bounded 3 3, .error (.of .aborted)⟩ := by
  intro answering silent
  have hanswering : answering.Times 3 3 := by
    refine ⟨by decide, fun call _ hcall => if_neg ?_, fun call hcall => ?_, fun call _ => ?_⟩
    · rintro rfl
      exact lt_irrefl _ hcall
    · obtain rfl : call = 3 := by exact_mod_cast hcall
      rfl
    · exact decide_eq_true_iff.trans (by exact_mod_cast Iff.rfl)
  have hsilent : silent.Times ⊤ 4 := by
    refine ⟨le_top, fun _ _ _ => rfl, fun call hcall => ?_, fun call _ => ?_⟩
    · exact absurd hcall (ENat.natCast_ne_top call)
    · exact decide_eq_true_iff.trans (by exact_mod_cast Iff.rfl)
  refine ⟨hanswering, hsilent, ?_, ?_, ?_⟩
  · obtain ⟨calls, value, hcalls, hvalue, hends⟩ :=
      (bounded_settles hanswering (show max 3 1 + 1 < wordLimit by decide)).answered (by decide)
        (by decide)
    obtain rfl : calls = 3 := by exact_mod_cast hcalls
    cases hvalue
    exact hends
  · exact (bounded_settles hanswering (show max 3 5 + 1 < wordLimit by decide)).spent (by decide)
      (by decide)
  · obtain ⟨calls, hcalls, hends⟩ :=
      (bounded_settles hsilent (show max 3 0 + 1 < wordLimit by decide)).aborted (by decide)
        (by decide)
    obtain rfl : calls = 4 := by
      exact_mod_cast hcalls.trans (show max 4 1 = (4 : ℕ∞) by decide)
    exact hends

end GatedPipeline.Pause
