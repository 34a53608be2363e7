import Mathlib.Algebra.GroupWithZero.Nat
import GatedPipeline.Proofs.Worker.Finished

/-!
No deadlock. As long as no worker has failed and the run has not been aborted, one of those still
at work can go on: the first of them, in the order of the stages, finds the record and the gate it
waits for, since all before it have let everything through. And the workers cannot go on for ever:
every turn that is no miss, no pause and no waiting for a delay lowers what they have left to do.
-/

namespace GatedPipeline

namespace Worker

/-! ### What a turn comes to -/

namespace Producer

/-- The last attempt of the poll was a miss; a pause is next. -/
def missed (producer : Producer) : Bool :=
  match producer.phase with
  | .missed _ => true
  | _ => false

/-- The producer at the next attempt of its poll, if it has missed one. -/
def retrying (producer : Producer) : Producer :=
  match producer.phase with
  | .missed progress => ⟨producer.pause, .ready progress⟩
  | _ => producer

/-- How many turns that do not idle the producer has left at most. -/
def rank (count : Nat) (producer : Producer) : Nat :=
  match producer.phase with
  | .begin => 2 * count + 3
  | .readStart _ _ => 2 * count + 2
  | .ready progress | .missed progress => 2 * (count - progress.index) + 1
  | .write progress => 2 * (count - progress.index)
  | .over _ => 0

/-- The producer is at no poll, or the record it waits for is due. -/
def proceeds (now : Nat) (context : Run.Context) (producer : Producer) : Bool :=
  !(producer.retrying.turn now context).2.missed

end Producer

namespace Stage

def missed (stage : Stage) : Bool :=
  match stage.phase with
  | .missedRecord _ | .missedPrevious _ _ => true
  | _ => false

def polling (stage : Stage) : Bool :=
  match stage.phase with
  | .awaitRecord _ | .missedRecord _ | .awaitPrevious _ _ | .missedPrevious _ _ => true
  | _ => false

def spinning (stage : Stage) : Bool :=
  match stage.phase with
  | .spin _ _ _ => true
  | _ => false

def retrying (stage : Stage) : Stage :=
  match stage.phase with
  | .missedRecord duty => ⟨stage.number, stage.pause, .awaitRecord duty⟩
  | .missedPrevious duty entry => ⟨stage.number, stage.pause, .awaitPrevious duty entry⟩
  | _ => stage

def rank (count : Nat) (stage : Stage) : Nat :=
  match stage.phase with
  | .begin => 7 * count + 2
  | .openPrevious _ => 7 * count + 1
  | .awaitRecord duty | .missedRecord duty => 7 * (count - duty.processed)
  | .awaitPrevious duty _ | .missedPrevious duty _ => 7 * (count - duty.processed) - 1
  | .stamp duty _ => 7 * (count - duty.processed) - 2
  | .startDelay duty _ _ => 7 * (count - duty.processed) - 3
  | .spin duty _ _ => 7 * (count - duty.processed) - 4
  | .publish duty _ => 7 * (count - duty.processed) - 5
  | .published duty _ => 7 * (count - duty.processed) + 1
  | .over _ => 0

/-- The stage is between polls, or the next attempt of its poll succeeds: it is no miss, and no
failure. -/
def proceeds (now : Nat) (context : Run.Context) (stage : Stage) : Bool :=
  let next := (stage.retrying.turn now context).2
  !next.missed && (!stage.polling || next.outcome.isNone)

end Stage

def missed : Worker → Bool
  | .producer worker => worker.missed
  | .stage worker => worker.missed

def spinning : Worker → Bool
  | .producer _ => false
  | .stage worker => worker.spinning

def rank (count : Nat) : Worker → Nat
  | .producer worker => worker.rank count
  | .stage worker => worker.rank count

/-- The worker is at work and can go on. In an aborted run no attempt follows a miss, so that a
worker that has missed is able only in a run that is not aborted. A producer may wait for its record
to be due, since the clock goes on. -/
structure Able (context : Run.Context) (worker : Worker) : Prop where
  working : worker.outcome = none
  attempts : worker.missed → context.aborted = false
  producer : ∀ producer, worker = .producer producer →
    ∃ time, ∀ now, time ≤ now → producer.proceeds now context
  stage : ∀ stage, worker = .stage stage → ∀ now, stage.proceeds now context

/-- The turn takes the worker further: it is no pause after a miss, no miss itself, and it does not
find the worker's delay not yet ended. -/
def advances (now : Nat) (context : Run.Context) (worker : Worker) : Bool :=
  !worker.isOver && !worker.missed && !(worker.turn now context).2.missed &&
    !(worker.spinning && (worker.turn now context).2.spinning)

section

variable {config : Run.Config} {place : Storage.Place} {context : Run.Context} {tally : Tally}
  {gates : Registry} {now : Nat}

/-! ### The producer -/

/-- The one miss of a producer: the record at hand is not due. -/
theorem Producer.missed_turn {producer : Producer} (h : (producer.turn now context).2.missed) :
    ∃ progress time, producer.phase = .ready progress ∧
      (producer.turn now context).2.phase = .missed progress ∧
        due progress = .ok time ∧ now < time := by
  obtain ⟨pause, phase⟩ := producer
  cases phase with
  | ready progress =>
      revert h
      simp only [Producer.turn]
      split
      · exact fun h => by cases h
      · split
        · split <;> exact fun h => by cases h
        · split
          · exact fun h => by cases h
          · rename_i time hdue
            split
            · exact fun h => by cases h
            · rename_i hearly
              exact fun _ => ⟨progress, time, rfl, rfl, hdue, Nat.not_le.mp hearly⟩
  | _ =>
      simp only [Producer.turn] at h
      repeat' split at h
      all_goals cases h

/-- A producer waits for nobody; at most it waits for its record to be due. -/
theorem Producer.able (producer : Producer) :
    ∃ time, ∀ now, time ≤ now → producer.proceeds now context := by
  cases hphase : producer.retrying.phase with
  | ready progress =>
      refine ⟨(due progress).toOption.getD 0, fun now hlate => ?_⟩
      simp only [proceeds, Bool.not_eq_true', ← Bool.not_eq_true]
      intro hmissed
      obtain ⟨other, time, hready, -, hdue, hearly⟩ := missed_turn hmissed
      rw [hphase] at hready
      cases hready
      rw [hdue] at hlate
      exact Nat.not_le.mpr hearly hlate
  | _ =>
      refine ⟨0, fun now _ => ?_⟩
      simp only [proceeds, Bool.not_eq_true', ← Bool.not_eq_true]
      intro hmissed
      obtain ⟨other, time, hready, -⟩ := missed_turn hmissed
      rw [hphase] at hready
      cases hready

/-- No turn raises the rank of a producer, and only pauses and misses leave it. -/
theorem Producer.rank_turn (now : Nat) {producer : Producer} (h : producer.Follows config tally)
    (hconfig : context.config = config) :
    (producer.turn now context).2.rank config.count ≤ producer.rank config.count ∧
      (Worker.isOver (.producer producer) = false → producer.missed = false →
        (producer.turn now context).2.missed = false →
          (producer.turn now context).2.rank config.count < producer.rank config.count) := by
  obtain ⟨pause, phase⟩ := producer
  cases phase with
  | begin =>
      simp only [Producer.turn]
      repeat' split
      all_goals
        simp only [Producer.rank]
        exact ⟨by omega, fun _ _ _ => by omega⟩
  | readStart appender interval =>
      simp only [Producer.turn, Producer.rank]
      exact ⟨by omega, fun _ _ _ => by omega⟩
  | ready progress =>
      simp only [Producer.turn]
      repeat' split
      case h_2.isFalse => exact ⟨Nat.le_refl _, fun _ _ hmissed => by cases hmissed⟩
      all_goals
        simp only [Producer.rank, Producer.finish]
        exact ⟨by omega, fun _ _ _ => by omega⟩
  | missed progress =>
      refine ⟨?_, fun _ hmissed => by cases hmissed⟩
      simp only [Producer.turn]
      split <;> simp only [Producer.rank, Producer.finish] <;> omega
  | write progress =>
      have hindex := h.1.index
      have hmore := h.2
      simp only [Producer.turn, hconfig]
      split
      · simp only [Producer.rank, Producer.finish]
        exact ⟨by omega, fun _ _ _ => by omega⟩
      · split
        · simp only [Producer.rank, Producer.finish]
          exact ⟨by omega, fun _ _ _ => by omega⟩
        · simp only [Producer.rank]
          exact ⟨by omega, fun _ _ _ => by omega⟩
  | «over» outcome => exact ⟨Nat.le_refl _, fun hwork => by cases hwork⟩

/-! ### The stages -/

/-- Only a poll can miss. -/
theorem Stage.polling_of_missed {stage : Stage} (h : (stage.turn now context).2.missed) :
    stage.polling := by
  obtain ⟨number, pause, phase⟩ := stage
  cases phase with
  | awaitRecord duty | missedRecord duty | awaitPrevious duty entry | missedPrevious duty entry =>
      rfl
  | _ =>
      simp only [Stage.turn] at h
      repeat' split at h
      all_goals cases h

theorem Stage.proceeds_between {stage : Stage} (h : stage.polling = false) :
    stage.proceeds now context := by
  have hhit : (stage.turn now context).2.missed = false := by
    apply Bool.eq_false_iff.mpr
    intro hmissed
    rw [polling_of_missed hmissed] at h
    cases h
  have hretry : stage.retrying = stage := by
    obtain ⟨number, pause, phase⟩ := stage
    cases phase <;> first | rfl | cases h
  simp only [Stage.proceeds, hretry, hhit, h, Bool.not_false, Bool.true_or, Bool.and_self]

/-- A stage whose predecessors have let all records through finds what it waits for. -/
theorem Stage.Follows.proceeds {stage : Stage} (hshows : context.Shows config place tally)
    (hfirst : 1 ≤ stage.number) (hlast : stage.number ≤ config.stages)
    (hbefore : ∀ slot < stage.number, tally.through slot = config.count)
    (h : stage.Follows config context.gates tally) : stage.proceeds now context := by
  have hproduced : tally.stamped 0 = config.count := hbefore 0 hfirst
  obtain ⟨number, pause, phase⟩ := stage
  simp only at hfirst hlast hbefore
  cases phase with
  | awaitRecord duty | missedRecord duty =>
      obtain ⟨halong, hmore⟩ := h
      simp only at halong hmore
      have hstands := halong.tailer
      rw [← hshows.layout] at hstands
      have hread := Tailer.read_committed hshows.log.sound hshows.log.framed hshows.log.fits
        (Nat.lt_of_lt_of_eq hmore hproduced.symm) hstands
      simp only [Stage.proceeds, retrying, Stage.turn, hread]
      split <;> rfl
  | awaitPrevious duty entry | missedPrevious duty entry =>
      obtain ⟨⟨halong, hentry⟩, hlater, hcommitted⟩ := h
      simp only at halong hentry hlater hcommitted
      have hprevious := halong.previous
      rw [if_neg hlater] at hprevious
      obtain ⟨gate, hgate, hfound⟩ := hprevious
      have hcompleted := hshows.hasCompleted (show 1 ≤ number - 1 by omega)
        (show number - 1 ≤ config.stages by omega) hfound hcommitted
      have hall := hbefore (number - 1) (by omega)
      rw [Tally.through_pos _ (by omega)] at hall
      have hpassed : decide (tally.completed number < tally.completed (number - 1)) = true := by
        rw [hall, ← hproduced]
        exact decide_eq_true hcommitted
      simp only [Stage.proceeds, retrying, Stage.turn, hgate, hentry, Layout.entryAt, hcompleted,
        hpassed]
      rfl
  | _ => exact proceeds_between rfl

/-- A stage that has a record at hand, or waits for one, has completed fewer than there are. -/
theorem Stage.Follows.at_hand {stage : Stage} (hvalid : tally.Valid config.stages config.count)
    (hfirst : 1 ≤ stage.number) (hlast : stage.number ≤ config.stages)
    (h : stage.Follows config gates tally) :
    match stage.phase with
    | .begin | .openPrevious _ | .published _ _ | .over _ => True
    | .awaitRecord duty | .missedRecord duty | .awaitPrevious duty _ | .missedPrevious duty _
    | .stamp duty _ | .startDelay duty _ _ | .spin duty _ _ | .publish duty _ =>
        duty.processed < config.count := by
  have hproduced := hvalid.stamped_mono (Nat.zero_le stage.number) hlast
  have hbefore := hvalid.stamped_mono (Nat.zero_le (stage.number - 1)) (by omega)
  have hthrough : tally.through (stage.number - 1) ≤ tally.stamped (stage.number - 1) :=
    hvalid.through_le (by omega)
  have hbound := hvalid.produced
  obtain ⟨number, pause, phase⟩ := stage
  simp only at hproduced hbefore hthrough
  cases phase with
  | begin | openPrevious gate | published duty entry | «over» outcome => trivial
  | awaitRecord duty | missedRecord duty =>
      exact Nat.lt_of_le_of_lt (Nat.le_of_eq h.1.processed) h.2
  | awaitPrevious duty entry | missedPrevious duty entry =>
      have hmore := Nat.lt_of_lt_of_le h.2.2 hbound
      exact Nat.lt_of_le_of_lt (Nat.le_of_eq h.1.1.processed) hmore
  | stamp duty entry =>
      have hmore := h.2
      rw [← h.1.1.processed] at hmore
      simp only at hmore ⊢
      omega
  | startDelay duty entry delay | spin duty entry deadline | publish duty entry =>
      have hstamped := h.1.stamped
      rw [← h.1.processed] at hstamped
      simp only at hstamped ⊢
      omega

/-- No turn raises the rank of a stage, and only pauses, misses and waiting for a delay leave it. -/
theorem Stage.rank_turn (now : Nat) {stage : Stage}
    (hvalid : tally.Valid config.stages config.count)
    (hfirst : 1 ≤ stage.number) (hlast : stage.number ≤ config.stages)
    (h : stage.Follows config gates tally) :
    (stage.turn now context).2.rank config.count ≤ stage.rank config.count ∧
      (Worker.isOver (.stage stage) = false → stage.missed = false →
        (stage.turn now context).2.missed = false →
        (stage.spinning && (stage.turn now context).2.spinning) = false →
          (stage.turn now context).2.rank config.count < stage.rank config.count) := by
  have hmore := h.at_hand hvalid hfirst hlast
  obtain ⟨number, pause, phase⟩ := stage
  cases phase with
  | begin | openPrevious gate | stamp duty entry | startDelay duty entry delay
  | publish duty entry | published duty entry =>
      simp only at hmore
      simp only [Stage.turn]
      repeat' split
      all_goals
        simp only [Stage.rank]
        exact ⟨by omega, fun _ _ _ _ => by omega⟩
  | awaitRecord duty =>
      simp only at hmore
      simp only [Stage.turn]
      split
      · exact ⟨Nat.zero_le _, fun _ _ _ _ => by simp only [Stage.rank]; omega⟩
      · exact ⟨Nat.le_refl _, fun _ _ hmissed => by cases hmissed⟩
      · split <;> simp only [Stage.rank] <;> exact ⟨by omega, fun _ _ _ _ => by omega⟩
  | awaitPrevious duty entry =>
      simp only at hmore
      simp only [Stage.turn]
      split
      · simp only [Stage.rank]
        exact ⟨by omega, fun _ _ _ _ => by omega⟩
      · split
        · simp only [Stage.rank]
          exact ⟨by omega, fun _ _ _ _ => by omega⟩
        · exact ⟨Nat.le_refl _, fun _ _ hmissed => by cases hmissed⟩
  | missedRecord duty | missedPrevious duty entry =>
      refine ⟨?_, fun _ hmissed => by cases hmissed⟩
      simp only [Stage.turn]
      split <;> simp only [Stage.rank] <;> omega
  | spin duty entry deadline =>
      simp only at hmore
      simp only [Stage.turn]
      split
      · exact ⟨Nat.le_refl _, fun _ _ _ hspinning => by cases hspinning⟩
      · simp only [Stage.rank]
        exact ⟨by omega, fun _ _ _ _ => by omega⟩
  | «over» outcome => exact ⟨Nat.le_refl _, fun hwork => by cases hwork⟩

/-! ### All workers -/

theorem Follows.through_over {worker : Worker} (h : worker.Follows config gates tally) {deed : Deed}
    (hok : worker.outcome = some (.ok deed)) : tally.through worker.slot = config.count := by
  cases worker with
  | producer worker => exact (Producer.Follows.over h hok).2
  | stage worker =>
      have hdone := (h.2.2.over hok).2.1
      exact (tally.through_pos h.1).trans hdone

/-- A worker at work whose predecessors have all let everything through is able to go on. -/
theorem Follows.able {worker : Worker} (hshows : context.Shows config place tally)
    (haborted : context.aborted = false) (h : worker.Follows config context.gates tally)
    (hwork : worker.outcome = none)
    (hbefore : ∀ slot < worker.slot, tally.through slot = config.count) : Able context worker := by
  constructor
  case working => exact hwork
  case attempts => exact fun _ => haborted
  case producer =>
    rintro producer rfl
    exact producer.able
  case stage =>
    rintro stage rfl now
    exact h.2.2.proceeds hshows h.1 h.2.1 hbefore

/-- A turn that takes a worker further lowers its rank, and no turn raises it. -/
theorem Follows.rank_turn (now : Nat) {worker : Worker}
    (hvalid : tally.Valid config.stages config.count) (hshows : context.Shows config place tally)
    (h : worker.Follows config context.gates tally) :
    (worker.advances now context).toNat + (worker.turn now context).2.rank config.count ≤
      worker.rank config.count := by
  have hle : (worker.turn now context).2.rank config.count ≤ worker.rank config.count ∧
      (worker.advances now context = true →
        (worker.turn now context).2.rank config.count < worker.rank config.count) := by
    cases worker with
    | producer worker =>
        obtain ⟨hle, hlt⟩ := Producer.rank_turn now h hshows.config
        refine ⟨hle, fun hadvances => ?_⟩
        simp only [advances, Bool.and_eq_true, Bool.not_eq_true'] at hadvances
        exact hlt hadvances.1.1.1 hadvances.1.1.2 hadvances.1.2
    | stage worker =>
        obtain ⟨hle, hlt⟩ := Stage.rank_turn now hvalid h.1 h.2.1 h.2.2
        refine ⟨hle, fun hadvances => ?_⟩
        simp only [advances, Bool.and_eq_true, Bool.not_eq_true'] at hadvances
        exact hlt hadvances.1.1.1 hadvances.1.1.2 hadvances.1.2 hadvances.2
  cases hadvances : worker.advances now context with
  | true =>
      have hlt := hle.2 hadvances
      simp only [Bool.toNat_true]
      omega
  | false => exact Nat.le_trans (Nat.le_of_eq (Nat.zero_add _)) hle.1

theorem rank_start_producer (count : Nat) (pause : Pause) :
    (Worker.start pause .producer).rank count = 2 * count + 3 := rfl

theorem rank_start_stage (count : Nat) (pause : Pause) (number : Nat) :
    (Worker.start pause (.stage number)).rank count = 7 * count + 2 := rfl

end

/-! ### Single turns -/

def appends : Worker → Bool
  | .producer ⟨_, .write _⟩ => true
  | _ => false

def completes (number : Nat) : Worker → Bool
  | .stage ⟨other, _, .publish _ _⟩ => other == number
  | _ => false

theorem appends_next (now : Nat) (tally : Tally) (worker : Worker) :
    worker.appends.toNat + tally.stamped 0 ≤ (worker.next now tally).stamped 0 := by
  cases worker with
  | producer worker =>
      obtain ⟨pause, phase⟩ := worker
      cases phase with
      | write progress =>
          simp only [appends, Worker.next, Producer.next, Tally.stamped_stamp, if_true,
            Bool.toNat_true]
          omega
      | _ => exact Nat.le_of_eq (Nat.zero_add _)
  | stage worker =>
      obtain ⟨number, pause, phase⟩ := worker
      cases phase with
      | stamp duty entry =>
          simp only [appends, Worker.next, Stage.next, Tally.stamped_stamp, Bool.toNat_false]
          split
          · rename_i hsame
            rw [hsame]
            omega
          · omega
      | _ => exact Nat.le_of_eq (Nat.zero_add _)

theorem completes_next (number now : Nat) (tally : Tally) (worker : Worker) :
    (worker.completes number).toNat + tally.completed number ≤
      (worker.next now tally).completed number := by
  cases worker with
  | producer worker =>
      obtain ⟨pause, phase⟩ := worker
      cases phase <;> exact Nat.le_of_eq (Nat.zero_add _)
  | stage worker =>
      obtain ⟨other, pause, phase⟩ := worker
      cases phase with
      | publish duty entry =>
          simp only [completes, Worker.next, Stage.next, Tally.completed_complete]
          split
          · rename_i hsame
            subst hsame
            simp only [beq_self_eq_true, Bool.toNat_true]
            omega
          · rename_i hne
            have hother : (other == number) = false := beq_false_of_ne (Ne.symm hne)
            simp only [hother, Bool.toNat_false]
            omega
      | _ => exact Nat.le_of_eq (Nat.zero_add _)

end Worker

namespace Crew

open Worker

/-- The step is a turn of a worker that does something of a sort. -/
def does (sort : Nat → Run.Context → Worker → Bool) (crew : Crew) : Step → Bool
  | .work index now => crew.workers[index]?.any (sort now crew.context)
  | .abort => false

/-- How many turns of a sort are among the steps. -/
def turns (sort : Nat → Run.Context → Worker → Bool) : Crew → List Step → Nat
  | _, [] => 0
  | crew, step :: rest => (crew.does sort step).toNat + turns sort (crew.step step) rest

/-- How many turns that take a worker further there can still be. -/
def rank (crew : Crew) (count : Nat) : Nat := (crew.workers.map (Worker.rank count)).sum

def reached (crew : Crew) (schedule : Nat → Step) (moment : Nat) : Crew :=
  crew.run ((List.range moment).map schedule)

/-- The workers of all slots before this one have returned without failing. -/
def Done (crew : Crew) (slot : Nat) : Prop :=
  ∀ other ∈ crew.workers, other.slot < slot → ∃ deed, other.outcome = some (.ok deed)

theorem turns_append (sort : Nat → Run.Context → Worker → Bool) (crew : Crew)
    (steps more : List Step) : crew.turns sort (steps ++ more) =
      crew.turns sort steps + (crew.run steps).turns sort more := by
  induction steps generalizing crew with
  | nil => exact (Nat.zero_add _).symm
  | cons step rest ih =>
      simp only [List.cons_append, turns, ih, Nat.add_assoc]
      rfl

private theorem sum_set {values : List Nat} {index value : Nat} (h : values[index]? = some value)
    (new : Nat) : (values.set index new).sum + value = values.sum + new := by
  induction values generalizing index with
  | nil => cases h
  | cons first rest ih =>
      cases index with
      | zero =>
          cases h
          simp only [List.set_cons_zero, List.sum_cons]
          omega
      | succ index =>
          have hrest := ih h
          simp only [List.set_cons_succ, List.sum_cons]
          omega

/-- Some worker is at work, and all before it in the order of the slots have returned. -/
theorem first_at_work {crew : Crew} (hfine : ¬ crew.Failed) (hwork : crew.allOver = false) :
    ∃ (index : Nat) (worker : Worker), crew.workers[index]? = some worker ∧
      worker.outcome = none ∧ crew.Done worker.slot := by
  obtain ⟨worker, hmember, hbusy⟩ : ∃ worker ∈ crew.workers, worker.outcome = none := by
    simpa [allOver, isOver] using hwork
  -- down the slots, to a worker before which nobody is at work
  induction hslot : worker.slot using Nat.strongRecOn generalizing worker with
  | ind slot ih =>
      by_cases hbefore : ∃ other ∈ crew.workers, other.outcome = none ∧ other.slot < slot
      · obtain ⟨other, hother, hidle, hlt⟩ := hbefore
        exact ih other.slot hlt other hother hidle rfl
      · obtain ⟨index, hindex⟩ := List.mem_iff_getElem?.mp hmember
        refine ⟨index, worker, hindex, hbusy, fun other hother hlt => ?_⟩
        cases houtcome : other.outcome with
        | none => exact absurd ⟨other, hother, houtcome, hslot ▸ hlt⟩ hbefore
        | some outcome =>
            cases outcome with
            | error problem => exact absurd ⟨other, hother, problem, houtcome⟩ hfine
            | ok deed => exact ⟨deed, rfl⟩

section InStep

variable {crew : Crew} {config : Run.Config} {place : Storage.Place} {tally : Tally}
  (h : crew.InStep config place tally)

include h

theorem InStep.through_done {slot : Nat} (hslot : slot ≤ config.stages) (hdone : crew.Done slot) :
    ∀ earlier < slot, tally.through earlier = config.count := by
  intro earlier hearlier
  obtain ⟨index, other, hat, rfl⟩ := h.worker_of_slot (show earlier ≤ config.stages by omega)
  have hother := List.mem_of_getElem? hat
  obtain ⟨deed, hdeed⟩ := hdone other hother hearlier
  exact (h.follows other hother).through_over hdeed

/-- The first worker still at work is able to go on. -/
theorem InStep.able (hfine : ¬ crew.Failed) (haborted : crew.context.aborted = false)
    (hwork : crew.allOver = false) :
    ∃ worker ∈ crew.workers, worker.Able crew.context := by
  obtain ⟨index, worker, hindex, hbusy, hdone⟩ := first_at_work hfine hwork
  have hfollows := h.follows worker (List.mem_of_getElem? hindex)
  refine ⟨worker, List.mem_of_getElem? hindex, hfollows.able h.shows haborted hbusy ?_⟩
  exact h.through_done hfollows.slot_le hdone

/-- Turns that each add to a count of the tally are no more than the count grows by. -/
theorem InStep.turns_le {sort : Nat → Run.Context → Worker → Bool} {done : Tally → Nat}
    (hnext : ∀ now context tally worker,
      (sort now context worker).toNat + done tally ≤ done (worker.next now tally))
    (steps : List Step) :
    crew.turns sort steps + done tally ≤ done (crew.tally tally steps) := by
  induction steps generalizing crew tally with
  | nil => exact Nat.le_of_eq (Nat.zero_add _)
  | cons step rest ih =>
      have hrest := ih (h.step step)
      have hstep : (crew.does sort step).toNat + done tally ≤ done (crew.next tally step) := by
        cases step with
        | abort => exact Nat.le_of_eq (Nat.zero_add _)
        | work index now =>
            cases hworker : crew.workers[index]? with
            | none => simp [does, Crew.next, hworker]
            | some worker =>
                simp only [does, Crew.next, hworker, Option.any_some]
                exact hnext now crew.context tally worker
      simp only [turns, Crew.tally]
      omega

theorem InStep.rank_step (step : Step) :
    (crew.does Worker.advances step).toNat + (crew.step step).rank config.count ≤
      crew.rank config.count := by
  obtain ⟨context, workers⟩ := crew
  cases step with
  | abort => exact Nat.le_of_eq (Nat.zero_add _)
  | work index now =>
      cases hworker : workers[index]? with
      | none => simp [does, Crew.step, hworker]
      | some worker =>
          have hturn := (h.follows worker (List.mem_of_getElem? hworker)).rank_turn now h.valid
            h.shows
          have hat : (workers.map (Worker.rank config.count))[index]? =
              some (worker.rank config.count) := by
            rw [List.getElem?_map, hworker, Option.map_some]
          simp only at hturn
          have hsum := sum_set hat ((worker.turn now context).2.rank config.count)
          simp only [does, Crew.step, hworker, Option.any_some, rank, List.map_set]
          omega

/-- The workers go further only so often. -/
theorem InStep.advances_le (steps : List Step) :
    crew.turns Worker.advances steps + (crew.run steps).rank config.count ≤
      crew.rank config.count := by
  induction steps generalizing crew tally with
  | nil => exact Nat.le_of_eq (Nat.zero_add _)
  | cons step rest ih =>
      have hrest := ih (h.step step)
      have hstep := h.rank_step step
      simp only [turns]
      change _ + (Crew.run (crew.step step) rest).rank config.count ≤ _
      omega

end InStep

theorem succeeded_of_over {crew : Crew} (hfine : ¬ crew.Failed) (hover : crew.allOver) :
    crew.Succeeded := by
  intro worker hworker
  have hdone : worker.isOver := List.all_eq_true.mp hover worker hworker
  obtain ⟨outcome, houtcome⟩ := Option.isSome_iff_exists.mp hdone
  cases outcome with
  | error problem => exact absurd ⟨worker, hworker, problem, houtcome⟩ hfine
  | ok deed => exact ⟨deed, houtcome⟩

/-- A schedule without failures that takes the workers further again and again, but only so often,
has them all return. -/
theorem reaches_success {crew : Crew} {bound : Nat}
    (hbound : ∀ steps, crew.turns Worker.advances steps ≤ bound) {schedule : Nat → Step}
    (hfine : ∀ moment, ¬ (crew.reached schedule moment).Failed)
    (hgoes : ∀ moment, (crew.reached schedule moment).allOver = false →
      ∃ later, moment ≤ later ∧
        (crew.reached schedule later).does Worker.advances (schedule later)) :
    ∃ moment, (crew.reached schedule moment).Succeeded := by
  apply Classical.byContradiction
  intro hnever
  have hwork : ∀ moment, (crew.reached schedule moment).allOver = false := by
    intro moment
    apply Bool.eq_false_iff.mpr
    intro hover
    exact hnever ⟨moment, succeeded_of_over (hfine moment) hover⟩
  have hmany : ∀ many, ∃ moment,
      many ≤ crew.turns Worker.advances ((List.range moment).map schedule) := by
    intro many
    induction many with
    | zero => exact ⟨0, Nat.zero_le _⟩
    | succ many ih =>
        obtain ⟨moment, hmoment⟩ := ih
        obtain ⟨later, hlater, hdoes⟩ := hgoes moment (hwork moment)
        obtain ⟨gap, rfl⟩ := Nat.exists_eq_add_of_le hlater
        refine ⟨moment + gap + 1, ?_⟩
        have hlast : crew.turns Worker.advances ((List.range (moment + gap + 1)).map schedule) =
            crew.turns Worker.advances ((List.range (moment + gap)).map schedule) + 1 := by
          rw [List.range_succ, List.map_append, turns_append]
          simp only [List.map_cons, List.map_nil, turns, reached] at hdoes ⊢
          rw [hdoes]
          rfl
        have hmono : crew.turns Worker.advances ((List.range moment).map schedule) ≤
            crew.turns Worker.advances ((List.range (moment + gap)).map schedule) := by
          rw [List.range_add, List.map_append, turns_append]
          exact Nat.le_add_right _ _
        omega
  obtain ⟨moment, hmoment⟩ := hmany (bound + 1)
  have hfew := hbound ((List.range moment).map schedule)
  omega

theorem start_rank (context : Run.Context) (pause : Role → Pause) (count : Nat) :
    (start context pause).rank count =
      context.config.stages * (7 * count + 2) + (2 * count + 3) := by
  simp only [rank, start, roles, List.map_append, List.map_map, List.sum_append, Function.comp_def]
  simp only [rank_start_stage, rank_start_producer, List.map_const', List.sum_replicate_nat,
    List.length_reverse, List.length_range, List.map_cons, List.map_nil, List.sum_cons,
    List.sum_nil, Nat.add_zero]

end Crew

end GatedPipeline
