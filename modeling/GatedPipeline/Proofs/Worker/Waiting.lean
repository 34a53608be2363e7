import GatedPipeline.Proofs.Pause.Deadline
import GatedPipeline.Proofs.Worker.Paced

/-!
A producer that waits with a deadline. It waits for one record after the other to be due, and none
of these waits begins earlier than one interval before its record is due. So with a timeout above
the interval the producer gives up only when it looks at the clock so much later than the record
was due.
-/

namespace GatedPipeline.Worker.Producer

/-- A wait since then, if there is one, begins at most one interval before the record at hand is
due. -/
def Progress.Since (interval : Nat) (since : Option Nat) (progress : Progress) : Prop :=
  ∀ first ∈ since, progress.start + progress.index * interval ≤ first + interval

/-- The producer's pause has that timeout, and it waits for nothing but the record at hand. -/
def Waits (timeout interval : Nat) (producer : Producer) : Prop :=
  ∃ since, producer.pause = .deadline timeout since ∧
    match producer.phase with
    | .ready progress | .missed progress => progress.Since interval since
    | .begin | .readStart .. | .write _ => since = none
    | .over _ => True

section Waits

variable {config : Run.Config} {timeout interval : Nat} {readings : List Nat}
  {producer : Producer} {progress : Progress}

theorem Progress.since_none (interval : Nat) (progress : Progress) :
    progress.Since interval none := by
  rintro first ⟨⟩

/-- A miss begins a wait, or goes on with the one under way. -/
theorem Progress.Since.missed {since : Option Nat} {now : Nat}
    (h : progress.Since interval since) (hscheduled : progress.Scheduled interval interval readings)
    (hforward : (readings ++ [now]).Pairwise (· ≤ ·)) :
    progress.Since interval (some (since.getD now)) := by
  obtain ⟨reading, hreading, hreached⟩ := hscheduled.reached
  have hlater : reading ≤ now :=
    (List.pairwise_append.mp hforward).2.2 reading hreading now (List.mem_singleton_self now)
  rintro first ⟨⟩
  cases since with
  | none => exact Nat.le_trans hreached (Nat.add_le_add_right hlater interval)
  | some first => exact h first rfl

theorem Waits.turn (h : producer.Waits timeout interval)
    (hscheduled : producer.Scheduled interval readings) (context : Run.Context)
    (hpositive : 1 ≤ interval) {now : Nat} (hforward : (readings ++ [now]).Pairwise (· ≤ ·)) :
    (producer.turn now context).2.Waits timeout interval := by
  obtain ⟨pause, phase⟩ := producer
  obtain ⟨since, rfl, hsince⟩ := h
  cases phase with
  | begin =>
      simp only [Producer.turn]
      split
      · exact ⟨since, rfl, trivial⟩
      · split
        · exact ⟨since, rfl, trivial⟩
        · exact ⟨since, rfl, hsince⟩
  | readStart appender given =>
      obtain rfl : since = none := hsince
      exact ⟨none, rfl, Progress.since_none interval _⟩
  | ready progress =>
      have hprogress : progress.Scheduled interval interval readings := hscheduled
      have hpaced : ¬ progress.interval = 0 := by
        rw [hprogress.given]
        omega
      simp only [Producer.turn, if_neg hpaced]
      split
      · exact ⟨since, rfl, trivial⟩
      · split
        · exact ⟨since, rfl, trivial⟩
        · split
          · exact ⟨none, rfl, rfl⟩
          · exact ⟨since, rfl, hsince⟩
  | missed progress =>
      have hmissed := Progress.Since.missed hsince hscheduled hforward
      cases haborted : context.aborted with
      | true =>
          simp only [Producer.turn, Pause.afterMiss, haborted, if_true]
          exact ⟨since, rfl, trivial⟩
      | false =>
          simp only [Producer.turn, Pause.afterMiss, haborted, Bool.false_eq_true, if_false,
            Pause.pause_deadline]
          split_ifs
          · exact ⟨_, rfl, trivial⟩
          · exact ⟨_, rfl, hmissed⟩
  | write progress =>
      obtain rfl : since = none := hsince
      simp only [Producer.turn]
      split
      · exact ⟨none, rfl, trivial⟩
      · split
        · exact ⟨none, rfl, trivial⟩
        · exact ⟨none, rfl, Progress.since_none interval _⟩
  | «over» outcome => exact ⟨since, rfl, trivial⟩

theorem Lives.waits {pause : Pause} (h : Lives config pause readings producer)
    (hpause : pause = .deadline timeout none) (hinterval : config.interval = .ok interval)
    (hpositive : 1 ≤ interval) (hforward : readings.Pairwise (· ≤ ·)) :
    producer.Waits timeout interval := by
  induction h with
  | start => exact ⟨none, hpause, rfl⟩
  | turn h context hconfig now ih =>
      exact (ih (List.pairwise_append.mp hforward).1).turn (h.scheduled hinterval hpositive) context
        hpositive hforward

/-- A producer that gives up on a record has looked at the clock later after the record was due than
its timeout exceeds the interval. -/
theorem Lives.gives_up {pause after : Pause} {now : Nat} {problem : Problem}
    (h : Lives config pause readings producer) (hpause : pause = .deadline timeout none)
    (hinterval : config.interval = .ok interval) (hpositive : 1 ≤ interval)
    (hforward : (readings ++ [now]).Pairwise (· ≤ ·)) (hphase : producer.phase = .missed progress)
    (hfails : producer.pause.afterMiss false now = (after, .error problem)) :
    progress.start + progress.index * interval + timeout < now + interval := by
  obtain ⟨since, hsince, hwaits⟩ :=
    h.waits hpause hinterval hpositive (List.pairwise_append.mp hforward).1
  have hscheduled := h.scheduled hinterval hpositive
  simp only [Scheduled, hphase] at hwaits hscheduled
  have hfirst := (Progress.Since.missed hwaits hscheduled hforward) _ rfl
  rw [hsince, Pause.afterMiss, if_neg Bool.false_ne_true, Pause.pause_deadline] at hfails
  have hlate : since.getD now + timeout < now := by
    by_contra hearly
    rw [if_neg hearly] at hfails
    cases hfails
  omega

end Waits

end GatedPipeline.Worker.Producer
