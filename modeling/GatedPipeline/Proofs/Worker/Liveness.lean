import GatedPipeline.Proofs.Worker.Order
import GatedPipeline.Proofs.Worker.Progress

/-!
Runs in which every worker gets its turns. A turn that takes a worker no further leaves it at the
same poll or delay. So in a run that is stuck the first worker at work tries the same again and
again, which it can do only until the clock has passed the time it waits for.
-/

namespace GatedPipeline

namespace Worker

inductive Rests : Worker → Worker → Prop
  | producer {before after : Producer} (phase : after.retrying.phase = before.retrying.phase) :
      Rests (.producer before) (.producer after)
  | stage {before after : Stage} (number : after.number = before.number)
      (phase : after.retrying.phase = before.retrying.phase) :
      Rests (.stage before) (.stage after)

/-- When the record at hand is due, if the producer may wait for it. -/
def Producer.waitEnd (producer : Producer) : Nat :=
  match producer.retrying.phase with
  | .ready progress => (due progress).toOption.getD 0
  | _ => 0

/-- When the delay of the stage is over, if it is in one. -/
def Stage.waitEnd (stage : Stage) : Nat :=
  match stage.retrying.phase with
  | .spin _ _ deadline => deadline
  | _ => 0

def waitEnd : Worker → Nat
  | .producer worker => worker.waitEnd
  | .stage worker => worker.waitEnd

theorem Rests.refl (worker : Worker) : Rests worker worker := by
  cases worker with
  | producer worker => exact .producer rfl
  | stage worker => exact .stage rfl rfl

theorem Rests.trans {first second third : Worker} (h : Rests first second)
    (hnext : Rests second third) : Rests first third := by
  cases h with
  | producer hphase =>
      cases hnext with
      | producer hnext => exact .producer (hnext.trans hphase)
  | stage hnumber hphase =>
      cases hnext with
      | stage hnext hafter => exact .stage (hnext.trans hnumber) (hafter.trans hphase)

theorem Rests.slot {before after : Worker} (h : Rests before after) : after.slot = before.slot := by
  cases h with
  | producer hphase => rfl
  | stage hnumber hphase => exact hnumber

theorem Producer.outcome_retrying (producer : Producer) :
    producer.retrying.outcome = producer.outcome := by
  obtain ⟨pause, phase⟩ := producer
  cases phase <;> rfl

theorem Stage.outcome_retrying (stage : Stage) : stage.retrying.outcome = stage.outcome := by
  obtain ⟨number, pause, phase⟩ := stage
  cases phase <;> rfl

theorem Rests.outcome {before after : Worker} (h : Rests before after) :
    after.outcome = before.outcome := by
  cases h with
  | @producer before after hphase =>
      simp only [Worker.outcome]
      rw [← Producer.outcome_retrying after, ← Producer.outcome_retrying before]
      simp only [Producer.outcome, hphase]
  | @stage before after hnumber hphase =>
      simp only [Worker.outcome]
      rw [← Stage.outcome_retrying after, ← Stage.outcome_retrying before]
      simp only [Stage.outcome, hphase]

section

variable {config : Run.Config} {place : Storage.Place} {context : Run.Context} {tally : Tally}
  {gates : Registry} {now : Nat}

theorem idle_cases {worker : Worker} (hwork : worker.outcome = none)
    (hidle : worker.advances now context = false) :
    worker.missed ∨ (worker.turn now context).2.missed ∨
      worker.spinning ∧ (worker.turn now context).2.spinning := by
  simp only [advances, isOver, hwork, Option.isSome_none, Bool.not_false, Bool.true_and,
    Bool.and_eq_false_iff, Bool.not_eq_false', Bool.and_eq_true] at hidle
  exact or_assoc.mp hidle

theorem advances_of {worker : Worker} (hwork : worker.outcome = none)
    (hready : worker.missed = false) (hhit : (worker.turn now context).2.missed = false)
    (hspins : ¬ (worker.spinning ∧ (worker.turn now context).2.spinning)) :
    worker.advances now context := by
  have hboth : (worker.spinning && (worker.turn now context).2.spinning) = false := by
    apply Bool.eq_false_iff.mpr
    intro hboth
    exact hspins ((Bool.and_eq_true _ _).mp hboth)
  simp only [advances, isOver, hwork, hready, hhit, hboth, Option.isSome_none, Bool.not_false,
    Bool.and_self]

theorem turn_over (now : Nat) (context : Run.Context) {worker : Worker}
    {outcome : Except Problem Deed} (hover : worker.outcome = some outcome) :
    (worker.turn now context).2 = worker := by
  cases worker with
  | producer worker =>
      obtain ⟨pause, phase⟩ := worker
      cases phase with
      | «over» outcome => rfl
      | _ => cases hover
  | stage worker =>
      obtain ⟨number, pause, phase⟩ := worker
      cases phase with
      | «over» outcome => rfl
      | _ => cases hover

theorem missed_over {worker : Worker} {outcome : Except Problem Deed}
    (hover : worker.outcome = some outcome) : worker.missed = false := by
  cases worker with
  | producer worker =>
      obtain ⟨pause, phase⟩ := worker
      cases phase <;> first | rfl | cases hover
  | stage worker =>
      obtain ⟨number, pause, phase⟩ := worker
      cases phase <;> first | rfl | cases hover

theorem Stage.retrying_ready {stage : Stage} (hready : stage.missed = false) :
    stage.retrying = stage := by
  obtain ⟨number, pause, phase⟩ := stage
  cases phase <;> first | rfl | cases hready

def Fails (worker : Worker) : Prop := ∃ problem, worker.outcome = some (.error problem)

/-- A producer that is taken no further stays where it is, unless it fails. -/
theorem Producer.rests {producer : Producer} (hwork : Worker.outcome (.producer producer) = none)
    (hidle : Worker.advances now context (.producer producer) = false)
    (hfine : ¬ Fails (.producer (producer.turn now context).2)) :
    (producer.turn now context).2.retrying.phase = producer.retrying.phase ∧
      (producer.missed → (producer.turn now context).2.missed = false) := by
  rcases idle_cases hwork hidle with hmissed | hmissed | ⟨hspinning, -⟩
  · obtain ⟨pause, phase⟩ := producer
    cases phase with
    | missed progress =>
        revert hfine
        simp only [Producer.turn]
        split
        · exact fun hfine => absurd ⟨_, rfl⟩ hfine
        · exact fun _ => ⟨rfl, fun _ => rfl⟩
    | _ => cases hmissed
  · obtain ⟨progress, time, hbefore, hafter, -⟩ := Producer.missed_turn hmissed
    simp only [retrying, missed, hbefore, hafter]
    exact ⟨trivial, fun hmissed => by cases hmissed⟩
  · cases hspinning

/-- A miss leaves a stage at its poll. -/
theorem Stage.Follows.missed_turn {stage : Stage} (hvalid : tally.Valid config.stages config.count)
    (hshows : context.Shows config place tally) (hlast : stage.number ≤ config.stages)
    (h : stage.Follows config gates tally) (hmissed : (stage.turn now context).2.missed) :
    (stage.turn now context).2.retrying.phase = stage.retrying.phase ∧ stage.missed = false := by
  have hproduced := hvalid.stamped_mono (Nat.zero_le stage.number) hlast
  have hpolling := polling_of_missed hmissed
  obtain ⟨number, pause, phase⟩ := stage
  simp only at hproduced
  revert hmissed
  cases phase with
  | awaitRecord duty =>
      obtain ⟨halong, hmore⟩ := h
      have hstands := halong.tailer
      rw [← hshows.layout] at hstands
      rw [halong.stamped] at hproduced
      have hread := Tailer.read_stands hshows.log.sound hshows.log.framed hshows.log.fits
        hproduced hstands
      simp only [Stage.turn, hread]
      -- what is read decides: a record is no miss, and nothing leaves the cursor where it is
      rcases Nat.lt_or_ge (tally.completed number) (tally.stamped 0) with hsome | hnone
      · rw [if_pos hsome]
        dsimp only
        split <;> exact fun hmissed => by cases hmissed
      · rw [if_neg (Nat.not_lt.mpr hnone)]
        exact fun _ => ⟨rfl, rfl⟩
  | awaitPrevious duty entry =>
      simp only [Stage.turn]
      split
      · exact fun hmissed => by cases hmissed
      · split
        · exact fun hmissed => by cases hmissed
        · exact fun _ => ⟨rfl, rfl⟩
  | missedRecord duty | missedPrevious duty entry =>
      simp only [Stage.turn]
      split <;> exact fun hmissed => by cases hmissed
  | _ => cases hpolling

/-- A stage that is taken no further stays where it is, unless it fails. -/
theorem Stage.Follows.rests {stage : Stage} (hvalid : tally.Valid config.stages config.count)
    (hshows : context.Shows config place tally) (hlast : stage.number ≤ config.stages)
    (h : stage.Follows config gates tally) (hwork : Worker.outcome (.stage stage) = none)
    (hidle : Worker.advances now context (.stage stage) = false)
    (hfine : ¬ Fails (.stage (stage.turn now context).2)) :
    (stage.turn now context).2.retrying.phase = stage.retrying.phase ∧
      (stage.missed → (stage.turn now context).2.missed = false) := by
  rcases idle_cases hwork hidle with hmissed | hmissed | ⟨hspinning, hspins⟩
  · obtain ⟨number, pause, phase⟩ := stage
    cases phase with
    | missedRecord duty | missedPrevious duty entry =>
        revert hfine
        simp only [Stage.turn]
        split
        · exact fun _ => ⟨rfl, fun _ => rfl⟩
        · exact fun hfine => absurd ⟨_, rfl⟩ hfine
    | _ => cases hmissed
  · obtain ⟨hphase, hready⟩ := h.missed_turn hvalid hshows hlast hmissed
    refine ⟨hphase, fun hmissed => ?_⟩
    rw [hready] at hmissed
    cases hmissed
  · obtain ⟨number, pause, phase⟩ := stage
    cases phase with
    | spin duty entry deadline =>
        revert hspins
        simp only [Worker.turn, Stage.turn]
        split
        · exact fun _ => ⟨rfl, fun hmissed => by cases hmissed⟩
        · exact fun hspins => by cases hspins
    | _ => cases hspinning

/-- A worker that is taken no further stays where it is, unless it fails. After a pause it is ready
for its next attempt. -/
theorem Follows.rests {worker : Worker} (hvalid : tally.Valid config.stages config.count)
    (hshows : context.Shows config place tally) (h : worker.Follows config context.gates tally)
    (hidle : worker.advances now context = false) (hfine : ¬ Fails (worker.turn now context).2) :
    Rests worker (worker.turn now context).2 ∧
      (worker.missed → (worker.turn now context).2.missed = false) := by
  cases hwork : worker.outcome with
  | some outcome =>
      rw [turn_over now context hwork]
      exact ⟨.refl worker, fun hmissed => by rw [missed_over hwork] at hmissed; cases hmissed⟩
  | none =>
      cases worker with
      | producer worker =>
          obtain ⟨hphase, hready⟩ := Producer.rests hwork hidle hfine
          exact ⟨.producer hphase, hready⟩
      | stage worker =>
          obtain ⟨hphase, hready⟩ := h.2.2.rests hvalid hshows h.2.1 hwork hidle hfine
          exact ⟨.stage (worker.number_turn now context) hphase, hready⟩

/-- Once its record is due, a producer that is ready for an attempt is taken further. -/
theorem Producer.advances_from {producer after : Producer} {context : Run.Context}
    (hwork : Worker.outcome (.producer producer) = none)
    (hrests : Rests (.producer producer) (.producer after)) (hready : after.missed = false)
    (hlate : producer.waitEnd ≤ now) : Worker.advances now context (.producer after) := by
  refine advances_of (hrests.outcome.trans hwork) hready ?_ ?_
  · apply Bool.eq_false_iff.mpr
    intro hmissed
    obtain ⟨progress, time, hphase, -, hdue, hearly⟩ := Producer.missed_turn hmissed
    cases hrests with
    | producer hsame =>
        have hat : producer.retrying.phase = .ready progress := by
          rw [← hsame]
          simp only [retrying, hphase]
        simp only [waitEnd, hat, hdue, Except.toOption, Option.getD_some] at hlate
        omega
  · rintro ⟨hspinning, -⟩
    cases hspinning

/-- Once its delay is over, a stage that is ready for an attempt which succeeds is taken further. -/
theorem Stage.advances_from {stage after : Stage} {context : Run.Context}
    (hwork : Worker.outcome (.stage stage) = none) (hrests : Rests (.stage stage) (.stage after))
    (hready : after.missed = false) (hproceeds : after.proceeds now context)
    (hlate : stage.waitEnd ≤ now) : Worker.advances now context (.stage after) := by
  refine advances_of (hrests.outcome.trans hwork) hready ?_ ?_
  · rw [Stage.proceeds, Stage.retrying_ready hready] at hproceeds
    simp only [Bool.and_eq_true, Bool.not_eq_true'] at hproceeds
    exact hproceeds.1
  · rintro ⟨hspinning, hspins⟩
    cases hrests with
    | stage _ hsame =>
        rw [Stage.retrying_ready hready] at hsame
        obtain ⟨number, pause, phase⟩ := after
        cases phase with
        | spin duty entry deadline =>
            simp only at hsame
            simp only [waitEnd, ← hsame] at hlate
            revert hspins
            simp only [Worker.turn, Stage.turn, if_neg (Nat.not_lt.mpr hlate)]
            exact fun hspins => by cases hspins
        | _ => cases hspinning

/-- A worker that is ready for an attempt is taken further once its own wait is over and all before
it have let everything through. -/
theorem Follows.advances_from {worker after : Worker} (hwork : worker.outcome = none)
    (hrests : Rests worker after) (hready : after.missed = false)
    (hshows : context.Shows config place tally) (h : after.Follows config context.gates tally)
    (hbefore : ∀ slot < after.slot, tally.through slot = config.count)
    (hlate : worker.waitEnd ≤ now) : after.advances now context := by
  cases hrests with
  | producer hsame => exact Producer.advances_from hwork (.producer hsame) hready hlate
  | stage hnumber hsame =>
      apply Stage.advances_from hwork (.stage hnumber hsame) hready _ hlate
      exact h.2.2.proceeds hshows h.1 h.2.1 hbefore

end

end Worker

namespace Crew

open Worker

/-- Every worker gets turn after turn, and the clock gets past every time. -/
structure Fair (schedule : Nat → Step) (workers : Nat) : Prop where
  turns : ∀ index < workers, ∀ moment, ∃ later now, moment ≤ later ∧
    schedule later = .work index now
  clock : ∀ time, ∃ moment, ∀ later, moment ≤ later → ∀ index now,
    schedule later = .work index now → time ≤ now

theorem reached_succ (crew : Crew) (schedule : Nat → Step) (moment : Nat) :
    crew.reached schedule (moment + 1) =
      (crew.reached schedule moment).step (schedule moment) := by
  simp only [reached, run, List.range_succ, List.map_append, List.foldl_append, List.map_cons,
    List.map_nil, List.foldl_cons, List.foldl_nil]

section InStep

variable {crew : Crew} {config : Run.Config} {place : Storage.Place} {tally : Tally}
  (h : crew.InStep config place tally)

include h

/-- A step that takes no worker further leaves all where they are. -/
theorem InStep.rests_step {step : Step} (hidle : crew.does Worker.advances step = false)
    (hfine : ¬ (crew.step step).Failed) {index : Nat} {worker : Worker}
    (hworker : crew.workers[index]? = some worker) :
    ∃ after, (crew.step step).workers[index]? = some after ∧ Rests worker after ∧
      ((∃ now, step = .work index now) → worker.missed → after.missed = false) ∧
        ((∀ now, step ≠ .work index now) → after = worker) := by
  obtain ⟨context, workers⟩ := crew
  have hstays : (∀ now, step ≠ .work index now) →
      (Crew.step ⟨context, workers⟩ step).workers[index]? = some worker := by
    intro hother
    cases step with
    | abort => exact hworker
    | work other now =>
        have hne : other ≠ index := fun hsame => hother now (hsame ▸ rfl)
        simp only [Crew.step]
        split
        · exact hworker
        · exact (List.getElem?_set_ne hne).trans hworker
  rcases Classical.em (∃ now, step = .work index now) with ⟨now, rfl⟩ | hother
  · simp only at hworker
    obtain ⟨hlt, -⟩ := List.getElem?_eq_some_iff.mp hworker
    simp only [does, hworker, Option.any_some] at hidle
    simp only [Crew.step, hworker] at hfine ⊢
    have hset : (workers.set index (worker.turn now context).2)[index]? = some _ :=
      List.getElem?_set_self hlt
    have hstill : ¬ Fails (worker.turn now context).2 := by
      rintro ⟨problem, hproblem⟩
      exact hfine ⟨_, List.mem_of_getElem? hset, problem, hproblem⟩
    obtain ⟨hrests, hready⟩ :=
      (h.follows worker (List.mem_of_getElem? hworker)).rests h.valid h.shows hidle hstill
    exact ⟨_, hset, hrests, fun _ => hready, fun hother => absurd rfl (hother now)⟩
  · refine ⟨worker, hstays fun now hstep => hother ⟨now, hstep⟩, .refl worker, ?_, fun _ => rfl⟩
    exact fun hown => absurd hown hother

section Stuck

variable {schedule : Nat → Step} {moment : Nat}
  (hfine : ∀ later, ¬ (crew.reached schedule later).Failed)
  (hidle : ∀ later, moment ≤ later →
    (crew.reached schedule later).does Worker.advances (schedule later) = false)

include hfine hidle

/-- In a run that is stuck from some moment on, all workers stay where they are. -/
theorem InStep.rests_reached {index : Nat} {worker : Worker}
    (hworker : (crew.reached schedule moment).workers[index]? = some worker) (gap : Nat) :
    ∃ after, (crew.reached schedule (moment + gap)).workers[index]? = some after ∧
      Rests worker after := by
  induction gap with
  | zero => exact ⟨worker, hworker, .refl worker⟩
  | succ gap ih =>
      obtain ⟨before, hbefore, hrests⟩ := ih
      have hnext := hfine (moment + gap + 1)
      rw [reached_succ] at hnext
      obtain ⟨after, hafter, hstep, -⟩ :=
        (h.run _).rests_step (hidle _ (Nat.le_add_right _ _)) hnext hbefore
      refine ⟨after, ?_, hrests.trans hstep⟩
      rw [← Nat.add_assoc, reached_succ]
      exact hafter

theorem InStep.done_reached {slot : Nat} (hdone : (crew.reached schedule moment).Done slot)
    (gap : Nat) : (crew.reached schedule (moment + gap)).Done slot := by
  intro after hafter hslot
  obtain ⟨index, hindex⟩ := List.mem_iff_getElem?.mp hafter
  obtain ⟨hlt, -⟩ := List.getElem?_eq_some_iff.mp hindex
  have hlength := (h.run ((List.range moment).map schedule)).length
  have hlater := (h.run ((List.range (moment + gap)).map schedule)).length
  have hwithin : index < (crew.reached schedule moment).workers.length := by
    simp only [reached] at hlt ⊢
    omega
  obtain ⟨other, hother, hrests⟩ :=
    h.rests_reached hfine hidle (List.getElem?_eq_getElem hwithin) gap
  obtain rfl : after = other := Option.some.inj (hindex.symm.trans hother)
  rw [hrests.outcome]
  exact hdone _ (List.getElem_mem hwithin) (hrests.slot ▸ hslot)

/-- In such a run, once its own wait is over, the first worker still at work takes turns only to
pause. -/
theorem InStep.missed_again {index : Nat} {worker : Worker}
    (hworker : (crew.reached schedule moment).workers[index]? = some worker)
    (hbusy : worker.outcome = none) (hdone : (crew.reached schedule moment).Done worker.slot) :
    ∀ gap now, schedule (moment + gap) = .work index now → worker.waitEnd ≤ now →
      ∀ after, (crew.reached schedule (moment + gap)).workers[index]? = some after →
        after.missed := by
  intro gap now hstep hlate after hafter
  apply Classical.byContradiction
  intro hready
  obtain ⟨other, hother, hrests⟩ := h.rests_reached hfine hidle hworker gap
  obtain rfl : after = other := Option.some.inj (hafter.symm.trans hother)
  have hlater := h.run ((List.range (moment + gap)).map schedule)
  have hfollows := hlater.follows after (List.mem_of_getElem? hafter)
  have hthrough := hlater.through_done hfollows.slot_le
    (hrests.slot ▸ h.done_reached hfine hidle hdone gap)
  have hadvances := hfollows.advances_from hbusy hrests (Bool.eq_false_iff.mpr hready) hlater.shows
    hthrough hlate
  have hdoes := hidle (moment + gap) (Nat.le_add_right _ _)
  simp only [does, hstep, hafter, Option.any_some] at hdoes
  exact Bool.false_ne_true (hdoes.symm.trans hadvances)

/-- A worker that takes turns only to pause, and is ready for an attempt, takes no turn at all. -/
theorem InStep.ready_reached {index : Nat} {worker : Worker}
    (hworker : (crew.reached schedule moment).workers[index]? = some worker)
    (hready : worker.missed = false)
    (hmissed : ∀ gap now, schedule (moment + gap) = .work index now → ∀ after,
      (crew.reached schedule (moment + gap)).workers[index]? = some after → after.missed)
    (gap : Nat) : ∃ after, (crew.reached schedule (moment + gap)).workers[index]? = some after ∧
      after.missed = false := by
  induction gap with
  | zero => exact ⟨worker, hworker, hready⟩
  | succ gap ih =>
      obtain ⟨before, hbefore, hwaits⟩ := ih
      have hnext := hfine (moment + gap + 1)
      rw [reached_succ] at hnext
      obtain ⟨after, hget, -, -, hother⟩ :=
        (h.run _).rests_step (hidle _ (Nat.le_add_right _ _)) hnext hbefore
      obtain rfl : after = before := by
        apply hother
        intro now hstep
        rw [hmissed gap now hstep before hbefore] at hwaits
        cases hwaits
      refine ⟨after, ?_, hwaits⟩
      rw [← Nat.add_assoc, reached_succ]
      exact hget

end Stuck

/-- In a run in which every worker gets its turns and none fails, somebody is taken further again
and again, as long as anyone is at work. -/
theorem InStep.goes_on {schedule : Nat → Step} (hfair : Fair schedule crew.workers.length)
    (hfine : ∀ moment, ¬ (crew.reached schedule moment).Failed) (moment : Nat)
    (hwork : (crew.reached schedule moment).allOver = false) : ∃ later, moment ≤ later ∧
      (crew.reached schedule later).does Worker.advances (schedule later) := by
  apply Classical.byContradiction
  intro hstuck
  have hidle : ∀ later, moment ≤ later →
      (crew.reached schedule later).does Worker.advances (schedule later) = false :=
    fun later hlater => Bool.eq_false_iff.mpr fun hdoes => hstuck ⟨later, hlater, hdoes⟩
  obtain ⟨index, worker, hworker, hbusy, hdone⟩ := first_at_work (hfine moment) hwork
  have hmissed := h.missed_again hfine hidle hworker hbusy hdone
  obtain ⟨late, hlate⟩ := hfair.clock worker.waitEnd
  have hindex : index < crew.workers.length := by
    obtain ⟨hlt, -⟩ := List.getElem?_eq_some_iff.mp hworker
    have hlength := (h.run ((List.range moment).map schedule)).length
    simp only [reached] at hlt
    rw [h.length]
    omega
  -- a pause makes it ready for an attempt, and only its next turn could be that attempt
  obtain ⟨first, now, hfirst, hpause⟩ := hfair.turns index hindex (max moment late)
  obtain ⟨gap, rfl⟩ := Nat.exists_eq_add_of_le (Nat.le_trans (Nat.le_max_left _ _) hfirst)
  have hafter : late ≤ moment + gap := Nat.le_trans (Nat.le_max_right _ _) hfirst
  obtain ⟨before, hbefore, -⟩ := h.rests_reached hfine hidle hworker gap
  have hnext := hfine (moment + gap + 1)
  rw [reached_succ] at hnext
  obtain ⟨after, hget, -, hready, -⟩ :=
    (h.run _).rests_step (hidle _ (Nat.le_add_right _ _)) hnext hbefore
  have hwait : ∀ more, ∃ after,
      (crew.reached schedule (moment + gap + 1 + more)).workers[index]? = some after ∧
        after.missed = false := by
    apply h.ready_reached hfine (fun later hlater => hidle later (by omega)) _
      (hready ⟨now, hpause⟩ (hmissed gap now hpause (hlate _ hafter index now hpause) _ hbefore))
    · intro more now hstep
      simp only [Nat.add_assoc] at hstep ⊢
      exact hmissed _ now hstep (hlate _ (by omega) index now hstep)
    · rw [reached_succ]
      exact hget
  obtain ⟨second, now', hsecond, hattempt⟩ := hfair.turns index hindex (moment + gap + 1)
  obtain ⟨more, rfl⟩ := Nat.exists_eq_add_of_le hsecond
  obtain ⟨waiting, hwaiting, hnone⟩ := hwait more
  simp only [Nat.add_assoc] at hattempt hwaiting
  have hlater := hlate _ (by omega) index now' hattempt
  rw [hmissed _ now' hattempt hlater waiting hwaiting] at hnone
  cases hnone

end InStep

/-- What keeps a run going and brings it to its end. By `able` there is no deadlock: one of the
workers still at work can go on. The turns that append, complete or otherwise advance are bounded.
By `returns` all workers of a run without failures return, none with an error, if the run is taken
further as long as anyone is at work, and by `fair` they do if every worker gets its turns. -/
structure Progresses (crew : Crew) (stages count : Nat) : Prop where
  able : ∀ steps, ¬ (crew.run steps).Failed → (crew.run steps).context.aborted = false →
    (crew.run steps).allOver = false →
      ∃ worker ∈ (crew.run steps).workers, worker.Able (crew.run steps).context
  appends : ∀ steps, crew.turns (fun _ _ => Worker.appends) steps ≤ count
  completes : ∀ stage, 1 ≤ stage → stage ≤ stages → ∀ steps,
    crew.turns (fun _ _ => Worker.completes stage) steps ≤ count
  advances : ∀ steps,
    crew.turns Worker.advances steps ≤ stages * (7 * count + 2) + (2 * count + 3)
  returns : ∀ schedule : Nat → Step, (∀ moment, ¬ (crew.reached schedule moment).Failed) →
    (∀ moment, (crew.reached schedule moment).allOver = false → ∃ later, moment ≤ later ∧
      (crew.reached schedule later).does Worker.advances (schedule later)) →
    ∃ moment, (crew.reached schedule moment).Succeeded
  fair : ∀ schedule : Nat → Step, Fair schedule crew.workers.length →
    (∀ moment, ¬ (crew.reached schedule moment).Failed) →
      ∃ moment, (crew.reached schedule moment).Succeeded

/-- On a context that has just been made the workers cannot deadlock, and they cannot go on for ever
either: the pauses may fail at any poll, the run may be aborted between any two turns, and the turns
come in any order. -/
theorem run_progresses {storage : Storage} {config : Run.Config} {context : Run.Context}
    (htree : storage.IsTree) (hcreate : Run.Context.create storage config = .ok context)
    (pause : Role → Pause) : (start context pause).Progresses config.stages config.count := by
  obtain ⟨place, hfresh⟩ := Run.Context.create_fresh htree hcreate
  have hstart := start_inStep hfresh pause
  have hvalid : ∀ steps, ((start context pause).tally .start steps).Valid config.stages
      config.count := fun steps => (hstart.run steps).valid
  have hadvances : ∀ steps, (start context pause).turns Worker.advances steps ≤
      config.stages * (7 * config.count + 2) + (2 * config.count + 3) := by
    intro steps
    have hrank := start_rank context pause config.count
    rw [hfresh.config] at hrank
    rw [← hrank]
    exact Nat.le_trans (Nat.le_add_right _ _) (hstart.advances_le steps)
  constructor
  case able => exact fun steps hfine haborted hwork => (hstart.run steps).able hfine haborted hwork
  case appends =>
    intro steps
    exact Nat.le_trans (hstart.turns_le (fun now _ => appends_next now) steps)
      (hvalid steps).produced
  case completes =>
    intro stage hfirst hlast steps
    have hown := ((hvalid steps).own stage hfirst hlast).1
    have hmono := (hvalid steps).stamped_mono (Nat.zero_le stage) hlast
    exact Nat.le_trans (hstart.turns_le (fun now _ => completes_next stage now) steps)
      (Nat.le_trans hown (Nat.le_trans hmono (hvalid steps).produced))
  case advances => exact hadvances
  case returns => exact fun schedule hfine hgoes => reaches_success hadvances hfine hgoes
  case fair =>
    intro schedule hfair hfine
    exact reaches_success hadvances hfine (hstart.goes_on hfair hfine)

/-- Two records and two stages, with both records appended and the first one completed by the first
stage: some worker can go on. -/
theorem run_progresses_two_stages : ∃ context,
    Run.Context.create .empty (.plain 2 2 "/out") = .ok context ∧
      let start := start context fun _ => .spinning
      start.Progresses 2 2 ∧ start.turns (fun _ _ => Worker.appends) (rounds 6) = 2 ∧
        start.turns (fun _ _ => Worker.completes 1) (rounds 6) = 1 ∧
        ∃ worker ∈ (start.run (rounds 6)).workers, worker.Able (start.run (rounds 6)).context := by
  have hshown : (Run.Context.create .empty (.plain 2 2 "/out")).toOption.map (fun context =>
      let start := start context fun _ => .spinning
      let crew := start.run (rounds 6)
      (start.turns (fun _ _ => Worker.appends) (rounds 6),
        start.turns (fun _ _ => Worker.completes 1) (rounds 6), crew.context.aborted,
        crew.workers.all (·.outcome.isNone), crew.allOver)) =
      some (2, 1, false, true, false) := by
    decide +kernel
  cases hcreate : Run.Context.create .empty (.plain 2 2 "/out") with
  | error problem => simp [hcreate, Except.toOption] at hshown
  | ok context =>
      simp only [hcreate, Except.toOption, Option.map_some, Option.some.injEq,
        Prod.mk.injEq] at hshown
      obtain ⟨happends, hcompletes, haborted, hworking, hover⟩ := hshown
      have hprogresses := run_progresses Storage.empty_isTree hcreate fun _ => .spinning
      refine ⟨context, rfl, hprogresses, happends, hcompletes, ?_⟩
      apply hprogresses.able (rounds 6) _ haborted hover
      rintro ⟨worker, hworker, problem, hfailed⟩
      have hnone := List.all_eq_true.mp hworking worker hworker
      rw [hfailed] at hnone
      cases hnone

end Crew

end GatedPipeline
