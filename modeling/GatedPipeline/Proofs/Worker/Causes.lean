import GatedPipeline.Proofs.Gates
import GatedPipeline.Worker.Crew

/-!
Why workers fail. As long as the run is not aborted none of them says that it was, unless its pause
says so by itself.
-/

namespace GatedPipeline

/-- The problem is that the run was aborted. -/
def Problem.IsAborted (problem : Problem) : Prop := problem.reported.cause = .aborted

namespace Problem

theorem not_isAborted_within {problem : Problem} (circumstance : Circumstance)
    (h : ¬ problem.IsAborted) : ¬ (problem.within circumstance).IsAborted := by
  cases problem with
  | failed failure => exact h
  | broken fault => exact h

theorem not_isAborted_broken (fault : Fault) : ¬ (Problem.broken fault).IsAborted := by
  intro h
  cases h

end Problem

/-- If the operation failed, then not because the run was aborted. -/
def Candid {α : Type} (result : Except Problem α) : Prop :=
  ∀ problem, result = .error problem → ¬ problem.IsAborted

namespace Candid

variable {α β : Type}

theorem ok (value : α) : Candid (Except.ok value : Except Problem α) := by
  intro problem h
  cases h

theorem error {problem : Problem} (h : ¬ problem.IsAborted) :
    Candid (.error problem : Except Problem α) := by
  intro other hother
  cases hother
  exact h

theorem broken (fault : Fault) : Candid (.error (.broken fault) : Except Problem α) :=
  error (Problem.not_isAborted_broken fault)

theorem orBroken (result : Except Fault α) : Candid (orBroken result) := by
  cases result with
  | error fault => exact broken fault
  | ok value => exact ok value

theorem bind {result : Except Problem α} {next : α → Except Problem β} (h : Candid result)
    (hnext : ∀ value, Candid (next value)) : Candid (result >>= next) := by
  cases result with
  | error problem => exact error (h problem rfl)
  | ok value => exact hnext value

end Candid

namespace Pause

/-- The pause does not say of itself that the run was aborted. -/
def Honest : Pause → Prop
  | .scripted verdict _ => ∀ call problem, verdict call = some problem → ¬ problem.IsAborted
  | _ => True

theorem Honest.reset {pause : Pause} (h : pause.Honest) : pause.reset.Honest := by
  cases pause <;> exact h

/-- As long as the run is not aborted, it is the pause alone that decides. -/
theorem Honest.afterMiss {pause after : Pause} {now : Nat} {result : Except Problem Unit}
    (h : pause.Honest) (hmiss : pause.afterMiss false now = (after, result)) :
    after.Honest ∧ Candid result := by
  simp only [Pause.afterMiss, Bool.false_eq_true, if_false] at hmiss
  cases pause with
  | spinning | yielding =>
      cases hmiss
      exact ⟨trivial, .ok ()⟩
  | bounded limit polls =>
      simp only [Pause.pause] at hmiss
      repeat' split at hmiss
      all_goals cases hmiss
      · exact ⟨trivial, .broken _⟩
      · exact ⟨trivial, .error nofun⟩
      · exact ⟨trivial, .ok ()⟩
  | deadline timeout since =>
      simp only [Pause.pause] at hmiss
      split at hmiss
      all_goals cases hmiss
      · exact ⟨trivial, .error nofun⟩
      · exact ⟨trivial, .ok ()⟩
  | scripted verdict calls =>
      simp only [Pause.pause] at hmiss
      split at hmiss
      all_goals cases hmiss
      · rename_i problem hverdict
        exact ⟨h, .error (h calls problem hverdict)⟩
      · exact ⟨h, .ok ()⟩

end Pause

namespace Log

theorem slot_candid (log : Log) (appender : Appender) : Candid (log.slot appender) := by
  have hfits : ∀ header body stop, Candid (do
      GatedPipeline.orBroken (log.access body log.layout.words)
      GatedPipeline.orBroken (log.access appender.position 1)
      GatedPipeline.orBroken (log.access header 1)
      let _ ← GatedPipeline.orBroken (Checked.add appender.next 1)
      pure (Slot.mk header body stop)) := by
    intro header body stop
    refine .bind (.orBroken _) fun _ => .bind (.orBroken _) fun _ => ?_
    exact .bind (.orBroken _) fun _ => .bind (.orBroken _) fun _ => .ok _
  have hwide : ∀ header body stop, Candid (do
      if log.layout.words ≤ 2 then throw (.broken (.recordTooShort log.layout.words))
      GatedPipeline.orBroken (log.access body log.layout.words)
      GatedPipeline.orBroken (log.access appender.position 1)
      GatedPipeline.orBroken (log.access header 1)
      let _ ← GatedPipeline.orBroken (Checked.add appender.next 1)
      pure (Slot.mk header body stop)) := by
    intro header body stop
    split
    · exact .bind (.broken _) fun _ => hfits header body stop
    · exact hfits header body stop
  unfold slot
  refine .bind (.orBroken _) fun header => .bind (.orBroken _) fun body => ?_
  refine .bind (.orBroken _) fun stop => ?_
  dsimp only
  split
  · exact .bind (.error nofun) fun _ => hwide header body stop
  · exact hwide header body stop

theorem appendWith_candid (log : Log) (appender : Appender) (fill : List Edit) :
    Candid (log.appendWith appender fill).2.2 := by
  have hplan : Candid (log.plan appender fill).outcome := by
    simp only [plan]
    split
    · rename_i problem hslot
      exact .error (log.slot_candid appender problem hslot)
    · split
      · exact .broken _
      · exact .ok _
  simp only [appendWith]
  split
  · exact .ok _
  · rename_i hproblem
    rw [hproblem] at hplan
    exact .error (hplan _ rfl)

end Log

namespace Run.Context

theorem takeAppender_candid {context after : Context} {failure : Failure}
    (htake : context.takeAppender = (after, .error failure)) :
    ¬ (Problem.failed failure).IsAborted := by
  simp only [takeAppender, onLog, Log.takeAppender] at htake
  cases htaken : context.log.appenderTaken with
  | true =>
      simp only [htaken, if_true, Prod.mk.injEq, Except.error.injEq] at htake
      obtain ⟨-, rfl⟩ := htake
      exact nofun
  | false => simp [htaken] at htake

theorem openGate_candid {context after : Context} {id : String} {failure : Failure}
    (hopen : context.openGate id = (after, .error failure)) :
    ¬ (Problem.failed failure).IsAborted := by
  simp only [openGate] at hopen
  split at hopen
  · rename_i other hrefused
    cases hopen
    simp only [Registry.open_eq] at hrefused
    repeat' split at hrefused
    all_goals cases hrefused
    exact nofun
  · cases hopen

end Run.Context

namespace Worker

def pause : Worker → Pause
  | .producer worker => worker.pause
  | .stage worker => worker.pause

/-- The worker has not failed because the run was aborted, and will not say so by itself. -/
structure Genuine (worker : Worker) : Prop where
  pause : worker.pause.Honest
  outcome : ∀ problem, worker.outcome = some (.error problem) → ¬ problem.IsAborted

section

variable {context : Run.Context}

private theorem Genuine.unfailed {worker : Worker} (hpause : worker.pause.Honest)
    (h : worker.outcome.all Except.isOk = true) : worker.Genuine := by
  refine ⟨hpause, fun problem hproblem => ?_⟩
  rw [hproblem] at h
  cases h

private theorem Genuine.failed {worker : Worker} {problem : Problem} (hpause : worker.pause.Honest)
    (hfailed : worker.outcome = some (.error problem)) (h : ¬ problem.IsAborted) :
    worker.Genuine := by
  refine ⟨hpause, fun other hother => ?_⟩
  cases hfailed.symm.trans hother
  exact h

private theorem Producer.genuine_turn (now : Nat) (hdown : context.aborted = false)
    {producer : Producer} (h : Genuine (.producer producer)) :
    Genuine (.producer (producer.turn now context).2) := by
  obtain ⟨hpause, houtcome⟩ := h
  obtain ⟨pause, phase⟩ := producer
  cases phase with
  | begin =>
      simp only [Producer.turn]
      split
      · exact .failed hpause rfl (Problem.not_isAborted_broken _)
      · split
        · rename_i failure hresult
          exact .failed hpause rfl (Run.Context.takeAppender_candid hresult)
        · exact .unfailed hpause rfl
  | readStart appender interval => exact .unfailed hpause rfl
  | ready progress =>
      simp only [Producer.turn, hdown]
      repeat' split
      case ready.isFalse.isTrue.isTrue => contradiction
      case h_1 => exact .failed hpause rfl (Problem.not_isAborted_broken _)
      case h_2.isTrue => exact .unfailed hpause.reset rfl
      all_goals exact .unfailed hpause rfl
  | missed progress =>
      simp only [Producer.turn, hdown]
      split
      · rename_i problem hmiss
        obtain ⟨hafter, hcandid⟩ := Pause.Honest.afterMiss hpause hmiss
        exact .failed hafter rfl (Problem.not_isAborted_within _ (hcandid problem rfl))
      · rename_i hmiss
        obtain ⟨hafter, -⟩ := Pause.Honest.afterMiss hpause hmiss
        exact .unfailed hafter rfl
  | write progress =>
      have hcandid := context.log.appendWith_candid progress.appender
        (fill context.config.count progress.index now)
      simp only [Producer.turn]
      split
      · rename_i problem hresult
        have hproblem := hcandid problem (congrArg (·.2.2) hresult)
        exact .failed hpause rfl (Problem.not_isAborted_within _ hproblem)
      · split
        · exact .failed hpause rfl (Problem.not_isAborted_broken _)
        · exact .unfailed hpause rfl
  | «over» outcome => exact ⟨hpause, houtcome⟩

private theorem Stage.genuine_turn (now : Nat) (hdown : context.aborted = false)
    {stage : Stage} (h : Genuine (.stage stage)) :
    Genuine (.stage (stage.turn now context).2) := by
  obtain ⟨hpause, houtcome⟩ := h
  obtain ⟨number, pause, phase⟩ := stage
  have hbroken : ∀ fault, Genuine (.stage ⟨number, pause, .over (.error (.broken fault))⟩) :=
    fun fault => .failed hpause rfl (Problem.not_isAborted_broken fault)
  cases phase with
  | begin =>
      simp only [Stage.turn]
      split
      · exact .failed hpause rfl nofun
      · split
        · rename_i failure hresult
          exact .failed hpause rfl (Run.Context.openGate_candid hresult)
        · split <;> exact .unfailed hpause rfl
  | openPrevious gate =>
      simp only [Stage.turn]
      split
      · rename_i failure hresult
        exact .failed hpause rfl (Run.Context.openGate_candid hresult)
      · exact .unfailed hpause rfl
  | awaitRecord duty =>
      simp only [Stage.turn]
      split
      · exact hbroken _
      · exact .unfailed hpause rfl
      · split <;> exact .unfailed hpause.reset rfl
  | awaitPrevious duty entry =>
      simp only [Stage.turn]
      split
      · exact .unfailed hpause rfl
      · split
        · exact .unfailed hpause.reset rfl
        · exact .unfailed hpause rfl
  | missedRecord duty | missedPrevious duty entry =>
      simp only [Stage.turn, hdown]
      split
      · rename_i hmiss
        obtain ⟨hafter, -⟩ := Pause.Honest.afterMiss hpause hmiss
        exact .unfailed hafter rfl
      · rename_i problem hmiss
        obtain ⟨hafter, hcandid⟩ := Pause.Honest.afterMiss hpause hmiss
        exact .failed hafter rfl (Problem.not_isAborted_within _ (hcandid problem rfl))
  | stamp duty entry =>
      simp only [Stage.turn]
      split
      · exact hbroken _
      · split <;> exact .unfailed hpause rfl
  | startDelay duty entry delay => exact .unfailed hpause rfl
  | spin duty entry deadline =>
      simp only [Stage.turn]
      split <;> exact .unfailed hpause rfl
  | publish duty entry =>
      simp only [Stage.turn]
      split
      · exact hbroken _
      · exact .unfailed hpause rfl
  | published duty entry =>
      simp only [Stage.turn]
      split <;> exact .unfailed hpause rfl
  | «over» outcome => exact ⟨hpause, houtcome⟩

/-- A turn in a run that is not aborted does not fail for being aborted. -/
theorem Genuine.turn {worker : Worker} (h : worker.Genuine) (now : Nat)
    (hdown : context.aborted = false) : (worker.turn now context).2.Genuine := by
  cases worker with
  | producer worker => exact Producer.genuine_turn now hdown h
  | stage worker => exact Stage.genuine_turn now hdown h

end

theorem start_genuine {pause : Pause} (h : pause.Honest) (role : Role) :
    (start pause role).Genuine := by
  cases role <;> exact .unfailed h rfl

end Worker

end GatedPipeline
