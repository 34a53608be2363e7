import GatedPipeline.Proofs.Worker.Liveness

/-!
The end of an aborted run. A worker that misses an attempt in an aborted run is over at its next
turn, whatever its pause would have said, and of the attempts that succeed there is at most one of
each sort for each record. So a worker that goes on getting its turns returns, whether those it
waits for are still at work or not.
-/

namespace GatedPipeline

/-- Whatever comes ever nearer to a goal, or reaches it, reaches it. -/
theorem reaches_of_descent {goal : Nat → Prop} (rank : Nat → Nat) {first : Nat}
    (hdescent : ∀ moment, first ≤ moment →
      ∃ later, moment ≤ later ∧ (goal later ∨ rank later < rank moment))
    {moment : Nat} (hfirst : first ≤ moment) : ∃ later, moment ≤ later ∧ goal later := by
  induction hrank : rank moment using Nat.strongRecOn generalizing moment with
  | ind before ih =>
      subst hrank
      obtain ⟨later, hlater, hgoal | hlt⟩ := hdescent moment hfirst
      · exact ⟨later, hlater, hgoal⟩
      · obtain ⟨last, hlast, hgoal⟩ := ih _ hlt (Nat.le_trans hfirst hlater) rfl
        exact ⟨last, Nat.le_trans hlater hlast, hgoal⟩

namespace Run.Context

/-- What no worker changes of a run: whether it is aborted, and where its directory is. -/
def frame (context : Context) : Bool × String := (context.aborted, context.directory)

theorem onLog_frame {α : Type} (context : Context) (work : Log → Log × α) :
    (context.onLog work).1.frame = context.frame := rfl

theorem openGate_frame (context : Context) (id : String) :
    (context.openGate id).1.frame = context.frame := by
  simp only [openGate]
  split <;> rfl

theorem publish_frame (context : Context) (gate : Gate) (index : Int) :
    (context.publish gate index).1.frame = context.frame := by
  simp only [publish]
  split <;> rfl

end Run.Context

namespace Worker

/-- What a worker can be waiting for. A producer waits for its record to be due. A stage waits for
the next record, and then for the stage before it to complete that record. -/
inductive Wait where
  | due
  | record
  | gate
  deriving DecidableEq, Repr

/-- The worker's next turn is an attempt to end such a wait. -/
def attempts : Wait → Worker → Bool
  | .due, .producer ⟨_, .ready _⟩ => true
  | .record, .stage ⟨_, _, .awaitRecord _⟩ => true
  | .gate, .stage ⟨_, _, .awaitPrevious _ _⟩ => true
  | _, _ => false

/-- The attempt succeeds: it is no miss, and the worker is at work after it. -/
def hits (wait : Wait) (now : Nat) (context : Run.Context) (worker : Worker) : Bool :=
  worker.attempts wait && !(worker.turn now context).2.missed && !(worker.turn now context).2.isOver

/-- How many waits of a sort can still end well. -/
def waits (count : Nat) (wait : Wait) : Worker → Nat
  | .producer ⟨_, phase⟩ =>
      match phase with
      | .begin | .readStart _ _ => count
      | .ready progress | .missed progress => count - progress.index
      | .write progress => count - progress.index - 1
      | .over _ => 0
  | .stage ⟨_, _, phase⟩ =>
      match phase with
      | .begin | .openPrevious _ => count
      | .awaitRecord duty | .missedRecord duty | .published duty _ => count - duty.processed
      | .awaitPrevious duty _ | .missedPrevious duty _ =>
          if wait = .gate then count - duty.processed else count - duty.processed - 1
      | .stamp duty _ | .startDelay duty _ _ | .spin duty _ _ | .publish duty _ =>
          count - duty.processed - 1
      | .over _ => 0

/-- When the delay that the worker spins for is over; zero if it is in none. -/
def spinEnd : Worker → Nat
  | .stage ⟨_, _, .spin _ _ deadline⟩ => deadline
  | _ => 0

/-- The worker is at work, and its next turn is more than a look at the clock in its own delay. -/
def moves (now : Nat) (_ : Run.Context) (worker : Worker) : Bool :=
  !worker.isOver && decide (worker.spinEnd ≤ now)

/-- How many such turns a worker has left at most once the run is aborted. -/
def left (count : Nat) (worker : Worker) : Nat :=
  if worker.isOver then 0 else if worker.missed then 1 else worker.rank count + 2

section

variable {config : Run.Config} {place : Storage.Place} {context : Run.Context} {tally : Tally}
  {gates : Registry} {now : Nat}

/-! ### Single turns -/

private theorem Producer.frame_turn (now : Nat) (context : Run.Context) (producer : Producer) :
    (producer.turn now context).1.frame = context.frame := by
  obtain ⟨pause, phase⟩ := producer
  cases phase with
  | begin =>
      simp only [turn]
      split
      · rfl
      · have htaken : context.takeAppender.1.frame = context.frame := rfl
        split <;> rename_i hresult <;> exact (congrArg (·.1.frame) hresult).symm.trans htaken
  | write progress =>
      have hworked := context.onLog_frame fun log =>
        log.appendWith progress.appender (fill context.config.count progress.index now)
      simp only [turn]
      split
      · rename_i hresult
        exact (congrArg (·.1.frame) hresult).symm.trans hworked
      · rename_i hresult
        have hafter := (congrArg (·.1.frame) hresult).symm.trans hworked
        split
        · exact hafter
        · split <;> exact hafter
  | _ =>
      simp only [turn]
      repeat' split
      all_goals rfl

private theorem Stage.frame_turn (now : Nat) (context : Run.Context) (stage : Stage) :
    (stage.turn now context).1.frame = context.frame := by
  obtain ⟨number, pause, phase⟩ := stage
  cases phase with
  | begin =>
      have hopened := context.openGate_frame (Gate.ofStage number)
      simp only [turn]
      split
      · rfl
      · split
        · rename_i hresult
          exact (congrArg (·.1.frame) hresult).symm.trans hopened
        · rename_i hresult
          have hafter := (congrArg (·.1.frame) hresult).symm.trans hopened
          split <;> exact hafter
  | openPrevious gate =>
      have hopened := context.openGate_frame (Gate.ofStage (number - 1))
      simp only [turn]
      split <;> rename_i hresult <;> exact (congrArg (·.1.frame) hresult).symm.trans hopened
  | stamp duty entry =>
      simp only [turn]
      split
      · rename_i hresult
        exact (congrArg (·.1.frame) hresult).symm
      · rename_i hresult
        have hafter := (congrArg (·.1.frame) hresult).symm
        split <;> exact hafter
  | publish duty entry =>
      have hpublished := context.publish_frame duty.gate (gateValue entry)
      simp only [turn]
      split <;> rename_i hresult <;> exact (congrArg (·.1.frame) hresult).symm.trans hpublished
  | _ =>
      simp only [turn]
      repeat' split
      all_goals rfl

theorem frame_turn (now : Nat) (context : Run.Context) (worker : Worker) :
    (worker.turn now context).1.frame = context.frame := by
  cases worker with
  | producer worker => exact worker.frame_turn now context
  | stage worker => exact worker.frame_turn now context

/-- No worker raises the flag, or takes it back. -/
theorem aborted_turn (now : Nat) (context : Run.Context) (worker : Worker) :
    (worker.turn now context).1.aborted = context.aborted :=
  congrArg Prod.fst (worker.frame_turn now context)

/-- A missed attempt is the last one of an aborted run. -/
theorem gives_up (now : Nat) {worker : Worker} (haborted : context.aborted = true)
    (hmissed : worker.missed) :
    ∃ failure, (worker.turn now context).2.outcome = some (.error (.failed failure)) ∧
      failure.cause = .aborted := by
  cases worker with
  | producer worker =>
      obtain ⟨pause, phase⟩ := worker
      cases phase with
      | missed progress =>
          simp only [Worker.turn, Producer.turn, Pause.afterMiss, haborted, if_true]
          exact ⟨_, rfl, rfl⟩
      | _ => cases hmissed
  | stage worker =>
      obtain ⟨number, pause, phase⟩ := worker
      cases phase with
      | missedRecord duty | missedPrevious duty entry =>
          simp only [Worker.turn, Stage.turn, Pause.afterMiss, haborted, if_true]
          exact ⟨_, rfl, rfl⟩
      | _ => cases hmissed

/-- A turn in the middle of the worker's own delay changes nothing. -/
theorem turn_spinning {worker : Worker} (hearly : now < worker.spinEnd) :
    worker.turn now context = (context, worker) := by
  cases worker with
  | producer worker => cases hearly
  | stage worker =>
      obtain ⟨number, pause, phase⟩ := worker
      cases phase with
      | spin duty entry deadline =>
          simp only [spinEnd] at hearly
          simp only [Worker.turn, Stage.turn, if_pos hearly]
      | _ => cases hearly

/-- After the end of its delay a worker spins no more. -/
theorem spinning_turn {worker : Worker} (hspinning : worker.spinning)
    (hlate : worker.spinEnd ≤ now) : (worker.turn now context).2.spinning = false := by
  cases worker with
  | producer worker => cases hspinning
  | stage worker =>
      obtain ⟨number, pause, phase⟩ := worker
      cases phase with
      | spin duty entry deadline =>
          simp only [spinEnd] at hlate
          simp only [Worker.turn, Stage.turn, if_neg (Nat.not_lt.mpr hlate)]
          rfl
      | _ => cases hspinning

/-! ### What a turn costs -/

/-- A turn in an aborted run takes the worker nearer to its end. -/
theorem Follows.left_turn {worker : Worker} (hvalid : tally.Valid config.stages config.count)
    (hshows : context.Shows config place tally) (h : worker.Follows config context.gates tally)
    (haborted : context.aborted = true) (hmoves : worker.moves now context) :
    (worker.turn now context).2.left config.count < worker.left config.count := by
  simp only [moves, Bool.and_eq_true, Bool.not_eq_true', decide_eq_true_eq] at hmoves
  obtain ⟨hwork, hlate⟩ := hmoves
  cases hmissed : worker.missed with
  | true =>
      obtain ⟨failure, hfailed, -⟩ := gives_up now haborted hmissed
      have hover : (worker.turn now context).2.isOver := by rw [isOver, hfailed]; rfl
      simp [left, hover, hwork, hmissed]
  | false =>
      simp only [left, hwork, hmissed, Bool.false_eq_true, if_false]
      split
      · omega
      · split
        · omega
        · rename_i hover hhit
          have hadvances : worker.advances now context := by
            apply advances_of (Option.isNone_iff_eq_none.mp (by simpa [isOver] using hwork)) hmissed
              (Bool.not_eq_true _ ▸ hhit)
            rintro ⟨hspinning, hspins⟩
            rw [spinning_turn hspinning hlate] at hspins
            cases hspins
          have hrank := h.rank_turn now hvalid hshows
          rw [hadvances, Bool.toNat_true] at hrank
          omega

/-- No turn gives a producer more waits, and one that ends well takes one away. -/
private theorem Producer.waits_turn (wait : Wait) (now : Nat) {producer : Producer}
    (hvalid : tally.Valid config.stages config.count) (hconfig : context.config = config)
    (h : producer.Follows config tally) :
    waits config.count wait (.producer (producer.turn now context).2) ≤
        waits config.count wait (.producer producer) ∧
      (attempts wait (.producer producer) → (producer.turn now context).2.missed = false →
        Worker.isOver (.producer (producer.turn now context).2) = false →
          waits config.count wait (.producer (producer.turn now context).2) <
            waits config.count wait (.producer producer)) := by
  obtain ⟨pause, phase⟩ := producer
  cases phase with
  | begin | write progress =>
      refine ⟨?_, fun hattempt => by cases wait <;> cases hattempt⟩
      simp only [Producer.turn]
      repeat' split
      all_goals
        simp only [waits, finish]
        omega
  | readStart appender interval =>
      exact ⟨Nat.le_refl _, fun hattempt => by cases wait <;> cases hattempt⟩
  | ready progress =>
      have hindex := h.index
      have hbound := hvalid.produced
      simp only [Producer.turn, hconfig]
      repeat' split
      case h_2.isFalse => exact ⟨Nat.le_refl _, fun _ hmissed => by cases hmissed⟩
      case h_2.isTrue | ready.isFalse.isTrue.isFalse =>
        simp only [waits]
        exact ⟨by omega, fun _ _ _ => by omega⟩
      all_goals exact ⟨Nat.zero_le _, fun _ _ hwork => by cases hwork⟩
  | missed progress =>
      refine ⟨?_, fun hattempt => by cases wait <;> cases hattempt⟩
      simp only [Producer.turn]
      split <;> simp only [waits, finish] <;> omega
  | «over» outcome => exact ⟨Nat.le_refl _, fun hattempt => by cases wait <;> cases hattempt⟩

/-- No turn gives a stage more waits, and one that ends well takes one away. -/
private theorem Stage.waits_turn (wait : Wait) (now : Nat) {stage : Stage}
    (hvalid : tally.Valid config.stages config.count)
    (hfirst : 1 ≤ stage.number) (hlast : stage.number ≤ config.stages)
    (h : stage.Follows config gates tally) :
    waits config.count wait (.stage (stage.turn now context).2) ≤
        waits config.count wait (.stage stage) ∧
      (attempts wait (.stage stage) → (stage.turn now context).2.missed = false →
        Worker.isOver (.stage (stage.turn now context).2) = false →
          waits config.count wait (.stage (stage.turn now context).2) <
            waits config.count wait (.stage stage)) := by
  have hmore := h.at_hand hvalid hfirst hlast
  obtain ⟨number, pause, phase⟩ := stage
  cases phase with
  | awaitRecord duty =>
      simp only at hmore
      simp only [Stage.turn]
      split
      · exact ⟨Nat.zero_le _, fun _ _ hwork => by cases hwork⟩
      · exact ⟨Nat.le_refl _, fun _ hmissed => by cases hmissed⟩
      · split
        · -- the record is at hand; its gate is still to be waited for
          simp only [waits]
          split
          · rename_i hgate
            subst hgate
            exact ⟨Nat.le_refl _, fun hattempt => by cases hattempt⟩
          · exact ⟨by omega, fun _ _ _ => by omega⟩
        · simp only [waits]
          exact ⟨by omega, fun _ _ _ => by omega⟩
  | awaitPrevious duty entry =>
      simp only at hmore
      have hgate : attempts wait (.stage ⟨number, pause, .awaitPrevious duty entry⟩) →
          wait = .gate := by
        cases wait <;> intro hattempt <;> first | rfl | cases hattempt
      simp only [Stage.turn]
      split
      · simp only [waits]
        refine ⟨by split <;> omega, fun hattempt _ _ => ?_⟩
        rw [if_pos (hgate hattempt)]
        omega
      · split
        · simp only [waits]
          refine ⟨by split <;> omega, fun hattempt _ _ => ?_⟩
          rw [if_pos (hgate hattempt)]
          omega
        · exact ⟨Nat.le_refl _, fun _ hmissed => by cases hmissed⟩
  | «over» outcome => exact ⟨Nat.le_refl _, fun hattempt => by cases wait <;> cases hattempt⟩
  | _ =>
      refine ⟨?_, fun hattempt => by cases wait <;> cases hattempt⟩
      simp only [Stage.turn]
      repeat' split
      all_goals
        simp only [waits]
        omega

/-- A wait that ends well is one of those that still can. -/
theorem Follows.waits_turn (wait : Wait) (now : Nat) {worker : Worker}
    (hvalid : tally.Valid config.stages config.count) (hshows : context.Shows config place tally)
    (h : worker.Follows config context.gates tally) :
    (worker.hits wait now context).toNat + (worker.turn now context).2.waits config.count wait ≤
      worker.waits config.count wait := by
  have hle : (worker.turn now context).2.waits config.count wait ≤
      worker.waits config.count wait ∧ (worker.hits wait now context = true →
        (worker.turn now context).2.waits config.count wait < worker.waits config.count wait) := by
    simp only [hits, Bool.and_eq_true, Bool.not_eq_true']
    cases worker with
    | producer worker =>
        obtain ⟨hle, hlt⟩ := worker.waits_turn wait now hvalid hshows.config h
        exact ⟨hle, fun hhits => hlt hhits.1.1 hhits.1.2 hhits.2⟩
    | stage worker =>
        obtain ⟨hle, hlt⟩ := worker.waits_turn wait now hvalid h.1 h.2.1 h.2.2
        exact ⟨hle, fun hhits => hlt hhits.1.1 hhits.1.2 hhits.2⟩
  cases hhits : worker.hits wait now context with
  | true =>
      have hlt := hle.2 hhits
      simp only [Bool.toNat_true]
      omega
  | false => exact Nat.le_trans (Nat.le_of_eq (Nat.zero_add _)) hle.1

theorem waits_le (count : Nat) (wait : Wait) (worker : Worker) :
    worker.waits count wait ≤ count := by
  cases worker with
  | producer worker =>
      obtain ⟨pause, phase⟩ := worker
      cases phase <;> simp only [waits] <;> omega
  | stage worker =>
      obtain ⟨number, pause, phase⟩ := worker
      cases phase <;> simp only [waits] <;> (try split) <;> omega

theorem left_le {count : Nat} (hcount : 0 < count) (worker : Worker) :
    worker.left count ≤ 7 * count + 4 := by
  have hrank : worker.rank count ≤ 7 * count + 2 := by
    cases worker with
    | producer worker =>
        obtain ⟨pause, phase⟩ := worker
        cases phase <;> simp only [rank, Producer.rank] <;> omega
    | stage worker =>
        obtain ⟨number, pause, phase⟩ := worker
        cases phase <;> simp only [rank, Stage.rank] <;> omega
  simp only [left]
  split
  · omega
  · split <;> omega

/-- A turn that does not take a worker nearer to its end is one in its own delay, or comes after its
end. -/
theorem turn_unmoved {worker : Worker} (hwork : worker.isOver = false)
    (hidle : worker.moves now context = false) : worker.turn now context = (context, worker) := by
  apply turn_spinning
  simpa [moves, hwork] using hidle

/-- The turns that a worker has left in an aborted run are spent one by one. -/
theorem Follows.left_spent (now : Nat) {worker : Worker}
    (hvalid : tally.Valid config.stages config.count) (hshows : context.Shows config place tally)
    (h : worker.Follows config context.gates tally) (haborted : context.aborted = true) :
    (worker.moves now context).toNat + (worker.turn now context).2.left config.count ≤
      worker.left config.count := by
  cases hmoves : worker.moves now context with
  | true =>
      have hlt := h.left_turn hvalid hshows haborted hmoves
      simp only [Bool.toNat_true]
      omega
  | false =>
      have hsame : (worker.turn now context).2 = worker := by
        cases hover : worker.outcome with
        | some outcome => exact turn_over now context hover
        | none => rw [turn_unmoved (by rw [isOver, hover]; rfl) hmoves]
      simp [hsame]

end

section Course

variable {count first : Nat} {worker : Nat → Worker} {context : Nat → Run.Context}
  {turns : Nat → Option Nat}
  (hcourse : ∀ moment, worker (moment + 1) =
    (turns moment).elim (worker moment) fun now => ((worker moment).turn now (context moment)).2)
  (hleft : ∀ moment now, first ≤ moment → turns moment = some now →
    (worker moment).moves now (context moment) →
      (worker (moment + 1)).left count < (worker moment).left count)

include hcourse hleft

/-- Among others a worker stays as it is until it comes nearer to its end. -/
private theorem nearer_or_same {moment : Nat} (hfirst : first ≤ moment)
    (hwork : (worker moment).isOver = false) (gap : Nat) :
    (∃ later, moment ≤ later ∧ (worker later).left count < (worker moment).left count) ∨
      worker (moment + gap) = worker moment := by
  induction gap with
  | zero => exact .inr rfl
  | succ gap ih =>
      rcases ih with hnearer | hsame
      · exact .inl hnearer
      · have hnext := hcourse (moment + gap)
        cases hturn : turns (moment + gap) with
        | none =>
            rw [hturn, hsame] at hnext
            exact .inr hnext
        | some now =>
            rw [hturn, hsame] at hnext
            cases hmoves : (worker moment).moves now (context (moment + gap)) with
            | true =>
                have hlt := hleft (moment + gap) now (by omega) hturn (by rw [hsame]; exact hmoves)
                rw [hsame] at hlt
                exact .inl ⟨moment + gap + 1, by omega, hlt⟩
            | false =>
                right
                apply hnext.trans
                rw [Option.elim_some, turn_unmoved hwork hmoves]

/-- A worker that has turn after turn, and passes the end of each delay that it keeps, is over in
the end, if from some moment on each of its turns but those in its own delays takes away one of
those that it has left. -/
theorem over_of_turns (hserved : ∀ moment, ∃ later now, moment ≤ later ∧
    (worker moment).spinEnd ≤ now ∧ turns later = some now)
    {moment : Nat} (hfirst : first ≤ moment) :
    ∃ later, moment ≤ later ∧ (worker later).isOver := by
  refine reaches_of_descent (fun moment => (worker moment).left count) ?_ hfirst
  intro moment hfirst
  cases hwork : (worker moment).isOver with
  | true => exact ⟨moment, Nat.le_refl _, .inl hwork⟩
  | false =>
      obtain ⟨later, now, hlater, hlate, hturn⟩ := hserved moment
      obtain ⟨gap, rfl⟩ := Nat.exists_eq_add_of_le hlater
      rcases nearer_or_same hcourse hleft hfirst hwork gap with ⟨nearer, hnearer, hlt⟩ | hsame
      · exact ⟨nearer, hnearer, .inr hlt⟩
      · have hmoves : (worker (moment + gap)).moves now (context (moment + gap)) := by
          simp only [moves, hsame, hwork, Bool.not_false, Bool.true_and, decide_eq_true_eq]
          exact hlate
        have hlt := hleft (moment + gap) now (by omega) hturn hmoves
        rw [hsame] at hlt
        exact ⟨moment + gap + 1, by omega, .inr hlt⟩

end Course

def own (role : Role) (sort : Nat → Run.Context → Worker → Bool) (now : Nat)
    (context : Run.Context) (worker : Worker) : Bool :=
  decide (worker.role = role) && sort now context worker

end Worker

namespace Crew

open Worker

/-- The reading of the clock with which a worker takes a turn in this step, if it takes one. -/
def Step.reading (index : Nat) : Step → Option Nat
  | .work other now => if other = index then some now else none
  | .abort => none

/-- The end of the delay that one of the workers keeps, zero if it keeps none. -/
def spinEnd (crew : Crew) (index : Nat) : Nat := (crew.workers[index]?).elim 0 Worker.spinEnd

/-- From every moment of an endless schedule on the worker gets another turn, and the clock has then
passed the end of the delay that the worker was keeping, if it was keeping one. -/
def Serves (crew : Crew) (schedule : Nat → Step) (index : Nat) : Prop :=
  ∀ moment, ∃ later now, moment ≤ later ∧ (crew.reached schedule moment).spinEnd index ≤ now ∧
    (schedule later).reading index = some now

/-- An aborted run stays aborted. -/
theorem aborted_step {crew : Crew} (h : crew.context.aborted = true) (step : Step) :
    (crew.step step).context.aborted = true := by
  obtain ⟨context, workers⟩ := crew
  cases step with
  | abort => rfl
  | work index now =>
      cases hworker : workers[index]? with
      | none =>
          simp only [Crew.step, hworker]
          exact h
      | some worker =>
          simp only [Crew.step, hworker]
          exact (worker.aborted_turn now context).trans h

theorem aborted_run {crew : Crew} (h : crew.context.aborted = true) (steps : List Step) :
    (crew.run steps).context.aborted = true := by
  induction steps generalizing crew with
  | nil => exact h
  | cons step rest ih => exact ih (aborted_step h step)

/-- What a step does to one of the workers. -/
theorem worker_step {crew : Crew} {index : Nat} {worker : Worker}
    (hworker : crew.workers[index]? = some worker) (step : Step) :
    (crew.step step).workers[index]? =
      some ((step.reading index).elim worker fun now => (worker.turn now crew.context).2) := by
  obtain ⟨context, workers⟩ := crew
  simp only at hworker
  cases step with
  | abort => exact hworker
  | work other now =>
      by_cases hsame : other = index
      · subst hsame
        obtain ⟨hlt, -⟩ := List.getElem?_eq_some_iff.mp hworker
        simp only [Crew.step, hworker, Step.reading, if_true]
        exact List.getElem?_set_self hlt
      · simp only [Crew.step, Step.reading, if_neg hsame]
        split
        · exact hworker
        · exact (List.getElem?_set_ne hsame).trans hworker

section InStep

variable {crew : Crew} {config : Run.Config} {place : Storage.Place} {tally : Tally}
  (h : crew.InStep config place tally)

include h

/-- What the worker of a role does in a step it does in a turn of its own. -/
theorem InStep.does_own {index : Nat} {worker : Worker}
    (hworker : crew.workers[index]? = some worker)
    (sort : Nat → Run.Context → Worker → Bool) (step : Step) :
    crew.does (own worker.role sort) step =
      (step.reading index).any fun now => sort now crew.context worker := by
  cases step with
  | abort => rfl
  | work other now =>
      by_cases hsame : other = index
      · subst hsame
        simp [does, own, Step.reading, hworker]
      · cases hother : crew.workers[other]? with
        | none => simp [does, Step.reading, hother, hsame]
        | some another =>
            have hrole := h.role_ne hother hworker hsame
            simp [does, own, Step.reading, hother, hsame, hrole]

/-- In an aborted run a worker has no more turns of a sort than it has to spend on them. -/
theorem InStep.own_le {sort : Nat → Run.Context → Worker → Bool} {purse : Worker → Nat}
    (hspent : ∀ now {context : Run.Context} {tally : Tally} {worker : Worker},
      tally.Valid config.stages config.count → context.Shows config place tally →
        worker.Follows config context.gates tally → context.aborted = true →
          (sort now context worker).toNat + purse (worker.turn now context).2 ≤ purse worker)
    (haborted : crew.context.aborted = true) {index : Nat} {worker : Worker}
    (hworker : crew.workers[index]? = some worker) (steps : List Step) :
    crew.turns (own worker.role sort) steps ≤ purse worker := by
  induction steps generalizing crew tally worker with
  | nil => exact Nat.zero_le _
  | cons step rest ih =>
      have hafter := worker_step hworker step
      have hrest := ih (h.step step) (aborted_step haborted step) hafter
      have hdoes := h.does_own hworker sort step
      cases hreading : step.reading index with
      | none =>
          rw [hreading] at hrest hdoes
          simp only [turns, hdoes]
          simp only [Option.any_none, Bool.toNat_false, Nat.zero_add]
          exact hrest
      | some now =>
          rw [hreading] at hrest hdoes
          simp only [Option.elim_some, role_turn] at hrest
          have hcost := hspent now h.valid h.shows (h.follows worker (List.mem_of_getElem? hworker))
            haborted
          simp only [turns, hdoes, Option.any_some]
          omega

/-- In an aborted run a worker that gets turn after turn returns. -/
theorem InStep.returns (haborted : crew.context.aborted = true) {index : Nat} {worker : Worker}
    (hworker : crew.workers[index]? = some worker) {schedule : Nat → Step}
    (hserves : crew.Serves schedule index) :
    ∃ moment, ((crew.reached schedule moment).workers[index]?).any isOver := by
  have hstate : ∀ moment, ∃ tally, (crew.reached schedule moment).InStep config place tally :=
    fun moment => ⟨_, h.run ((List.range moment).map schedule)⟩
  have hat : ∀ moment, ∃ worker, (crew.reached schedule moment).workers[index]? = some worker := by
    intro moment
    induction moment with
    | zero => exact ⟨worker, hworker⟩
    | succ moment ih =>
        obtain ⟨before, hbefore⟩ := ih
        rw [reached_succ]
        exact ⟨_, worker_step hbefore _⟩
  choose course hcourse using hat
  have hnext : ∀ moment, course (moment + 1) =
      ((schedule moment).reading index).elim (course moment) fun now =>
        ((course moment).turn now (crew.reached schedule moment).context).2 := by
    intro moment
    have hafter := worker_step (hcourse moment) (schedule moment)
    rw [← reached_succ, hcourse (moment + 1)] at hafter
    exact Option.some.inj hafter
  have hmember : ∀ moment, course moment ∈ (crew.reached schedule moment).workers :=
    fun moment => List.mem_of_getElem? (hcourse moment)
  have hleft : ∀ moment now, 0 ≤ moment → (schedule moment).reading index = some now →
      (course moment).moves now (crew.reached schedule moment).context →
        (course (moment + 1)).left config.count < (course moment).left config.count := by
    intro moment now _ hturn hmoves
    obtain ⟨tally, hlater⟩ := hstate moment
    rw [hnext, hturn]
    exact (hlater.follows _ (hmember moment)).left_turn hlater.valid hlater.shows
      (aborted_run haborted _) hmoves
  have hserved : ∀ moment, ∃ later now, moment ≤ later ∧ (course moment).spinEnd ≤ now ∧
      (schedule later).reading index = some now := by
    intro moment
    have hturn := hserves moment
    rwa [spinEnd, hcourse moment] at hturn
  obtain ⟨moment, -, hover⟩ := over_of_turns hnext hleft hserved (Nat.zero_le 0)
  refine ⟨moment, ?_⟩
  rw [hcourse moment]
  exact hover

end InStep

/-- How the worker of a role ends in a run that is aborted, whatever has become of the others. Its
turns outside its own delays are bounded, and so are the attempts of each sort that can succeed.
After an attempt that does not succeed its next turn is its last and says that the run was aborted.
By `returns` it is over at some moment if it goes on getting turns. -/
structure Returns (crew : Crew) (count : Nat) (role : Role) : Prop where
  turns : ∀ steps, crew.turns (own role moves) steps ≤ 7 * count + 4
  hits : ∀ wait steps, crew.turns (own role (hits wait)) steps ≤ count
  misses : ∀ steps, ∀ worker ∈ (crew.run steps).workers, worker.role = role → worker.missed →
    ∀ now, ∃ failure, (worker.turn now (crew.run steps).context).2.outcome =
      some (.error (.failed failure)) ∧ failure.cause = .aborted
  returns : ∀ (schedule : Nat → Step) (index : Nat),
    (crew.workers[index]?).any (fun worker => decide (worker.role = role)) →
      crew.Serves schedule index →
        ∃ moment, ((crew.reached schedule moment).workers[index]?).any isOver

/-- Once a run is aborted, every worker that goes on getting turns returns: at whatever point that
happens, with whatever pauses, and whether or not those it waits for are still at work. -/
theorem aborted_run_returns {storage : Storage} {config : Run.Config} {context : Run.Context}
    (htree : storage.IsTree) (hcreate : Run.Context.create storage config = .ok context)
    (pause : Role → Pause) (steps : List Step)
    (haborted : ((start context pause).run steps).context.aborted = true) :
    ∀ role ∈ roles config.stages, ((start context pause).run steps).Returns config.count role := by
  obtain ⟨place, hfresh⟩ := Run.Context.create_fresh htree hcreate
  have h := (start_inStep hfresh pause).run steps
  generalize (start context pause).run steps = crew at h haborted
  generalize (start context pause).tally .start steps = tally at h
  intro role hrole
  rw [← h.roles] at hrole
  obtain ⟨worker, hmember, rfl⟩ := List.mem_map.mp hrole
  obtain ⟨index, hworker⟩ := List.mem_iff_getElem?.mp hmember
  constructor
  case turns =>
    intro steps
    have hown := h.own_le (fun now _ _ _ hvalid hshows hfollows haborted =>
      hfollows.left_spent now hvalid hshows haborted) haborted hworker steps
    exact Nat.le_trans hown (left_le h.count.1 worker)
  case hits =>
    intro wait steps
    have hown := h.own_le (fun now _ _ _ hvalid hshows hfollows _ =>
      hfollows.waits_turn wait now hvalid hshows) haborted hworker steps
    exact Nat.le_trans hown (waits_le config.count wait worker)
  case misses =>
    intro steps other _ _ hmissed now
    exact gives_up now (aborted_run haborted steps) hmissed
  case returns =>
    intro schedule at' hat hserves
    obtain ⟨other, hother, -⟩ := (Option.any_eq_true _ _).mp hat
    exact h.returns haborted hother hserves

/-- Two records and two stages that never give up: the producer gives up, and the second stage still
completes both records before it does. -/
theorem aborted_run_returns_two_stages : ∃ context,
    Run.Context.create .empty (.plain 2 2 "/out") = .ok context ∧
      let crew := (start context fun _ => .spinning).run
        (rounds 5 ++ [.abort, .work 2 5, .work 2 5])
      (∀ role ∈ roles 2, crew.Returns 2 role) ∧
        crew.workers.map Worker.isOver = [false, false, true] ∧
        crew.turns (own (.stage 2) moves) (rounds 20) = 9 ∧
        crew.turns (own (.stage 2) (hits .gate)) (rounds 20) = 2 := by
  have hshown : (Run.Context.create .empty (.plain 2 2 "/out")).toOption.map (fun context =>
      let crew := (start context fun _ => .spinning).run
        (rounds 5 ++ [.abort, .work 2 5, .work 2 5])
      (crew.context.aborted, crew.workers.map Worker.isOver,
        crew.turns (own (.stage 2) moves) (rounds 20),
        crew.turns (own (.stage 2) (hits .gate)) (rounds 20))) =
      some (true, [false, false, true], 9, 2) := by
    decide +kernel
  cases hcreate : Run.Context.create .empty (.plain 2 2 "/out") with
  | error problem => simp [hcreate, Except.toOption] at hshown
  | ok context =>
      simp only [hcreate, Except.toOption, Option.map_some, Option.some.injEq,
        Prod.mk.injEq] at hshown
      obtain ⟨haborted, hshown⟩ := hshown
      exact ⟨context, rfl,
        aborted_run_returns Storage.empty_isTree hcreate _ _ haborted, hshown⟩

end Crew

end GatedPipeline
