import Mathlib.Algebra.GroupWithZero.Nat
import GatedPipeline.Proofs.Worker.Crew

/-!
Clocks that never go back. A worker reads the clock at some moment after its last turn, and its next
turn is taken with that reading; others read the clock and take turns in between. A stage starts its
delay after its stamp, ends it before it publishes, and the next stage reads the clock only after it
has seen the gate. So the time of a stage on a record is later than that of the stage before it by
as much as that one is known to wait, and later than its own time on the record before by as much as
it waits itself.

How long a stage is known to wait depends on what is known of the readings. Close to the end of the
clock the end of a delay saturates, and all that is known then is that it is not over early.
-/

namespace GatedPipeline

/-- Nanoseconds that a stage waits before it completes a record; for production there are none. -/
def Run.Config.delay (config : Run.Config) (stage : Nat) : Nat := (config.delayOf stage).getD 0

/-- What is known of the readings of a clock, and how long each stage waits at least because of it.
By `lasts` a delay that starts at such a reading goes on for as long as `wait` says. -/
structure Run.Config.Timing (config : Run.Config) where
  reads : Nat → Prop
  wait : Nat → Nat
  wait_le : ∀ stage, wait stage ≤ config.delay stage
  lasts : ∀ now, reads now → ∀ stage ≤ config.stages,
    now + wait stage ≤ Worker.Stage.delayEnd now (config.delay stage)

namespace Run.Config.Timing

theorem wait_zero {config : Config} (timing : config.Timing) : timing.wait 0 = 0 :=
  Nat.le_zero.mp (timing.wait_le 0)

/-- From a reading that no delay takes out of the words each stage waits for all of its delay. -/
def unsaturated (config : Config) : config.Timing where
  reads now := ∀ stage ≤ config.stages, now + config.delay stage < wordLimit
  wait := config.delay
  wait_le _ := Nat.le_refl _
  lasts now hreads stage hstage := by
    have hsmall := hreads stage hstage
    have hmod : config.delay stage % wordLimit = config.delay stage :=
      Nat.mod_eq_of_lt (by omega)
    simp only [Worker.Stage.delayEnd, hmod]
    omega

/-- No delay ends before the reading that it starts from. -/
theorem le_delayEnd {now : Nat} (hnow : now < wordLimit) (delay : Nat) :
    now ≤ Worker.Stage.delayEnd now delay := by
  simp only [Worker.Stage.delayEnd]
  omega

private theorem signed_lasts (config : Config) (now : Nat)
    (hreads : 0 < now ∧ (now : Int) < signedLimit) (stage : Nat) (_ : stage ≤ config.stages) :
    now + 0 ≤ Worker.Stage.delayEnd now (config.delay stage) := by
  have hsmall := hreads.2
  have hword : now < wordLimit := by
    simp only [signedLimit, wordLimit] at hsmall ⊢
    omega
  exact le_delayEnd hword _

/-- From any reading that is a positive signed word no stage goes on too early. -/
def signed (config : Config) : config.Timing where
  reads now := 0 < now ∧ (now : Int) < signedLimit
  wait _ := 0
  wait_le _ := Nat.zero_le _
  lasts := signed_lasts config

/-- The same where more is known of the readings. -/
def also {config : Config} (timing : config.Timing) (known : Nat → Prop) : config.Timing where
  reads now := timing.reads now ∧ known now
  wait := timing.wait
  wait_le := timing.wait_le
  lasts now hreads := timing.lasts now hreads.1

end Run.Config.Timing

namespace Worker

namespace Tally

/-- The time in a slot of a record lies so far before a bound. -/
def Before (tally : Tally) (slot index wait bound : Nat) : Prop :=
  ∃ time, (tally.times slot)[index]? = some time ∧ time + wait ≤ bound

/-- Every time is at least the delay of the stage before it later than that stage's time on the
same record, and its own stage's delay later than the time on the record before. -/
structure Spaced (tally : Tally) (stages : Nat) (delay : Nat → Nat) : Prop where
  hop : ∀ stage, 1 ≤ stage → stage ≤ stages → ∀ index time,
    (tally.times stage)[index]? = some time →
      tally.Before (stage - 1) index (delay (stage - 1)) time
  own : ∀ slot ≤ stages, ∀ index time, (tally.times slot)[index + 1]? = some time →
    tally.Before slot index (delay slot) time

section

variable {tally after : Tally} {slot index wait bound stages count now : Nat}

theorem Before.later (h : tally.Before slot index wait bound) {more : Nat} (hmore : bound ≤ more) :
    tally.Before slot index wait more := by
  obtain ⟨time, htime, hbound⟩ := h
  exact ⟨time, htime, Nat.le_trans hbound hmore⟩

theorem Before.kept (h : tally.Before slot index wait bound)
    (hkept : ∀ time, (tally.times slot)[index]? = some time →
      (after.times slot)[index]? = some time) : after.Before slot index wait bound := by
  obtain ⟨time, htime, hbound⟩ := h
  exact ⟨time, hkept time htime, hbound⟩

/-- A stamp keeps the times there are. -/
theorem times_stamp_kept (tally : Tally) (slot now other index time : Nat)
    (h : (tally.times other)[index]? = some time) :
    ((tally.stamp slot now).times other)[index]? = some time := by
  simp only [stamp]
  split
  · rename_i hsame
    subst hsame
    obtain ⟨hlt, -⟩ := List.getElem?_eq_some_iff.mp h
    rwa [List.getElem?_append_left hlt]
  · exact h

theorem times_stamp_new (tally : Tally) (slot now : Nat) :
    ((tally.stamp slot now).times slot)[tally.stamped slot]? = some now := by
  simp [stamp, stamped]

/-- A time after a stamp is an old one, or the one just stamped. -/
theorem times_stamp_cases {other time : Nat}
    (h : ((tally.stamp slot now).times other)[index]? = some time) :
    (tally.times other)[index]? = some time ∨
      other = slot ∧ index = tally.stamped slot ∧ time = now := by
  simp only [stamp] at h
  split at h
  · rename_i hsame
    subst hsame
    rw [List.getElem?_append] at h
    split at h
    · exact .inl h
    · rename_i hbeyond
      obtain ⟨hat, htime⟩ := List.getElem?_eq_some_iff.mp h
      simp only [List.length_singleton] at hat
      simp only [List.getElem_singleton] at htime
      refine .inr ⟨rfl, ?_, htime.symm⟩
      simp only [stamped]
      omega
  · exact .inl h

theorem Turn.times_cases {role : Role} (hturn : Turn stages count role now tally after)
    {time : Nat} (h : time ∈ after.times slot) : time ∈ tally.times slot ∨ time = now := by
  obtain ⟨index, hindex⟩ := List.mem_iff_getElem?.mp h
  have hstamp : ∀ other, ((tally.stamp other now).times slot)[index]? = some time →
      time ∈ tally.times slot ∨ time = now := by
    intro other htime
    rcases times_stamp_cases htime with hold | ⟨-, -, hnew⟩
    · exact .inl (List.mem_of_getElem? hold)
    · exact .inr hnew
  cases hturn with
  | rest => exact .inl h
  | produce _ _ => exact hstamp 0 hindex
  | @stamp stage _ _ _ _ _ => exact hstamp stage hindex
  | complete _ _ _ _ => exact .inl h

theorem Turn.times_kept {role : Role} (hturn : Turn stages count role now tally after)
    (slot index time : Nat) (h : (tally.times slot)[index]? = some time) :
    (after.times slot)[index]? = some time := by
  cases hturn with
  | rest => exact h
  | produce _ _ => exact times_stamp_kept tally 0 now slot index time h
  | @stamp stage _ _ _ _ _ => exact times_stamp_kept tally stage now slot index time h
  | complete _ _ _ _ => exact h

theorem start_spaced (stages : Nat) (delay : Nat → Nat) : start.Spaced stages delay := by
  constructor
  · intro stage _ _ index time htime
    cases htime
  · intro slot _ index time htime
    cases htime

/-- A new time keeps its distance if it does to the slot before it and to the record before it. -/
theorem Spaced.stamp {delay : Nat → Nat} (h : tally.Spaced stages delay)
    (hhop : 1 ≤ slot → tally.Before (slot - 1) (tally.stamped slot) (delay (slot - 1)) now)
    (hown : ∀ index, index + 1 = tally.stamped slot → tally.Before slot index (delay slot) now) :
    (tally.stamp slot now).Spaced stages delay := by
  have hkept := times_stamp_kept tally slot now
  constructor
  · intro stage hfirst hlast index time htime
    apply Before.kept _ (hkept _ _)
    rcases times_stamp_cases htime with hold | ⟨rfl, rfl, rfl⟩
    · exact h.hop stage hfirst hlast index time hold
    · exact hhop hfirst
  · intro other hother index time htime
    apply Before.kept _ (hkept _ _)
    rcases times_stamp_cases htime with hold | ⟨rfl, hlast, rfl⟩
    · exact h.own other hother index time hold
    · exact hown index hlast

/-- The delays of all stages before one add up. -/
theorem Spaced.since_production {delay : Nat → Nat} (h : tally.Spaced stages delay) {stage : Nat}
    (hlast : stage ≤ stages) {time : Nat} (htime : (tally.times stage)[index]? = some time) :
    tally.Before 0 index ((List.range stage).map delay).sum time := by
  induction stage generalizing time with
  | zero => exact ⟨time, htime, Nat.le_refl _⟩
  | succ stage ih =>
      obtain ⟨between, hbetween, hdelay⟩ := h.hop (stage + 1) (by omega) hlast index time htime
      obtain ⟨produced, hproduced, hsum⟩ := ih (by omega) hbetween
      refine ⟨produced, hproduced, ?_⟩
      simp only [List.range_succ, List.map_append, List.map_cons, List.map_nil, List.sum_append,
        List.sum_cons, List.sum_nil]
      simp only [Nat.add_sub_cancel] at hdelay
      omega

end

end Tally

/-! ### Single workers -/

/-- What a stage is about to do comes late enough at any reading from `floor` on. -/
def Stage.Waits {config : Run.Config} (timing : config.Timing) (tally : Tally) (floor : Nat)
    (stage : Stage) : Prop :=
  let number := stage.number
  let done := tally.completed number
  match stage.phase with
  | .stamp _ _ => tally.Before (number - 1) done (timing.wait (number - 1)) floor
  | .startDelay _ _ delay => config.delay number = delay ∧ tally.Before number done 0 floor
  | .spin _ _ deadline => tally.Before number done (timing.wait number) deadline
  | .publish _ _ => tally.Before number done (timing.wait number) floor
  | _ => True

/-- What a worker has let through, it has let through with its delay, as seen from any reading from
`floor` on. -/
structure Punctual (worker : Worker) {config : Run.Config} (timing : config.Timing)
    (tally : Tally) (floor : Nat) : Prop where
  own : ∀ index < tally.through worker.slot,
    tally.Before worker.slot index (timing.wait worker.slot) floor
  waits : ∀ stage, worker = .stage stage → stage.Waits timing tally floor

section

variable {config : Run.Config} {timing : config.Timing} {place : Storage.Place}
  {context : Run.Context} {tally : Tally} {now latest : Nat}

theorem Stage.Waits.mono {stage : Stage} {floor more : Nat} {after : Tally}
    (h : stage.Waits timing tally floor) (hmore : floor ≤ more)
    (hdone : after.completed stage.number = tally.completed stage.number)
    (hkept : ∀ slot index time : Nat, (tally.times slot)[index]? = some time →
      (after.times slot)[index]? = some time) : stage.Waits timing after more := by
  obtain ⟨number, pause, phase⟩ := stage
  cases phase <;> simp only [Stage.Waits, hdone] at h ⊢
  case stamp duty entry => exact (h.later hmore).kept (hkept _ _)
  case startDelay duty entry delay => exact ⟨h.1, (h.2.later hmore).kept (hkept _ _)⟩
  case spin duty entry deadline => exact h.kept (hkept _ _)
  case publish duty entry => exact (h.later hmore).kept (hkept _ _)

theorem Punctual.later {worker : Worker} {floor more : Nat} (h : worker.Punctual timing tally floor)
    (hmore : floor ≤ more) : worker.Punctual timing tally more :=
  ⟨fun index hindex => (h.own index hindex).later hmore,
    fun stage hstage => (h.waits stage hstage).mono hmore rfl fun _ _ _ htime => htime⟩

/-- What others do leaves a worker as punctual as it is. -/
theorem Punctual.others {worker : Worker} {floor : Nat} {role : Role} {after : Tally}
    (h : worker.Punctual timing tally floor) (hfirst : ∀ stage, worker = .stage stage →
      1 ≤ stage.number)
    (hturn : Tally.Turn config.stages config.count role now tally after)
    (hrole : worker.role ≠ role) : worker.Punctual timing after floor := by
  obtain ⟨-, -, hproduced, hothers⟩ := hturn.others
  have hkept := hturn.times_kept
  have hthrough : after.through worker.slot = tally.through worker.slot := by
    cases worker with
    | producer worker => exact hproduced (Ne.symm hrole)
    | stage worker =>
        have hnumber := hfirst worker rfl
        change after.through worker.number = tally.through worker.number
        rw [Tally.through_pos _ hnumber, Tally.through_pos _ hnumber]
        exact (hothers worker.number hnumber (Ne.symm hrole)).2
  constructor
  · intro index hindex
    rw [hthrough] at hindex
    exact (h.own index hindex).kept (hkept _ _)
  · rintro stage rfl
    apply (h.waits stage rfl).mono (Nat.le_refl _) _ hkept
    exact (hothers stage.number (hfirst stage rfl) (Ne.symm hrole)).2

/-- A turn with a reading from `floor` on leaves a stage late enough for every later reading. -/
theorem Stage.Waits.turn {stage : Stage} {gates : Registry} (hconfig : context.config = config)
    (hlasts : now + timing.wait stage.number ≤ delayEnd now (config.delay stage.number))
    (hlate : now ≤ latest)
    (hreleased : ∀ index < tally.through (stage.number - 1),
      tally.Before (stage.number - 1) index (timing.wait (stage.number - 1)) latest)
    (hbefore : stage.Follows config gates tally) {later : Registry}
    (hafter : (stage.turn now context).2.Follows config later (stage.next now tally))
    (h : stage.Waits timing tally now) :
    (stage.turn now context).2.Waits timing (stage.next now tally) latest := by
  obtain ⟨number, pause, phase⟩ := stage
  cases phase with
  | stamp duty entry =>
      have hstamped : tally.stamped number = tally.completed number := hbefore.1.1.stamped
      have hnew := tally.times_stamp_new number now
      rw [hstamped] at hnew
      simp only [Stage.turn]
      split
      · trivial
      · rename_i after hwork
        have hsame : after.config = config :=
          (congrArg (fun result => result.1.config) hwork).symm.trans hconfig
        have hdelay : config.delay number = (after.config.delayOf number).getD 0 := by
          rw [hsame]
          rfl
        split
        · rename_i delay hsome
          rw [hsome] at hdelay
          exact ⟨hdelay, now, hnew, hlate⟩
        · rename_i hnone
          rw [hnone] at hdelay
          have hnowait : timing.wait number ≤ 0 :=
            Nat.le_trans (timing.wait_le number) (Nat.le_of_eq hdelay)
          exact ⟨now, hnew, Nat.le_trans (Nat.add_le_add_left hnowait now) hlate⟩
  | startDelay duty entry delay =>
      obtain ⟨hdelay, time, htime, hbound⟩ := h
      simp only at hlasts hdelay htime
      rw [hdelay] at hlasts
      exact ⟨time, htime, Nat.le_trans (Nat.add_le_add_right hbound _) hlasts⟩
  | spin duty entry deadline =>
      simp only [Stage.turn]
      split
      · exact h
      · exact Tally.Before.later h (by omega)
  | awaitRecord duty =>
      revert hafter
      simp only [Stage.turn]
      split
      · exact fun _ => trivial
      · exact fun _ => trivial
      · split
        · exact fun _ => trivial
        · intro hafter
          exact hreleased _ hafter.2
  | awaitPrevious duty entry =>
      revert hafter
      simp only [Stage.turn]
      split
      · intro hafter
        exact hreleased _ hafter.2
      · split
        · intro hafter
          exact hreleased _ hafter.2
        · exact fun _ => trivial
  | _ =>
      simp only [Stage.turn]
      repeat' split
      all_goals trivial

/-- The time that a stage stamps keeps its distance from the old ones. -/
theorem Stage.Waits.spaced {stage : Stage} {gates : Registry}
    (hfollows : stage.Follows config gates tally)
    (hspaced : tally.Spaced config.stages timing.wait)
    (hown : ∀ index < tally.completed stage.number,
      tally.Before stage.number index (timing.wait stage.number) now)
    (h : stage.Waits timing tally now) :
    (stage.next now tally).Spaced config.stages timing.wait := by
  obtain ⟨number, pause, phase⟩ := stage
  cases phase with
  | stamp duty entry =>
      have hstamped : tally.stamped number = tally.completed number := hfollows.1.1.stamped
      apply hspaced.stamp
      · intro _
        rw [hstamped]
        exact h
      · intro index hbefore
        have hold : index + 1 = tally.stamped number := hbefore
        apply hown
        change index < tally.completed number
        omega
  | publish duty entry => exact ⟨hspaced.hop, hspaced.own⟩
  | _ => exact hspaced

/-- A record that a stage completes has been delayed. -/
theorem Stage.Waits.own {stage : Stage} (hlate : now ≤ latest)
    (hown : ∀ index < tally.completed stage.number,
      tally.Before stage.number index (timing.wait stage.number) now)
    (h : stage.Waits timing tally now) :
    ∀ index < (stage.next now tally).completed stage.number,
      (stage.next now tally).Before stage.number index (timing.wait stage.number) latest := by
  obtain ⟨number, pause, phase⟩ := stage
  intro index hindex
  cases phase with
  | stamp duty entry =>
      exact ((hown index hindex).later hlate).kept (Tally.times_stamp_kept tally number now _ _)
  | publish duty entry =>
      change index < (tally.complete number).completed number at hindex
      rw [Tally.completed_complete, if_pos rfl] at hindex
      rcases Nat.lt_succ_iff_lt_or_eq.mp hindex with hold | rfl
      · exact (hown index hold).later hlate
      · exact Tally.Before.later h hlate
  | _ => exact (hown index hindex).later hlate

/-- The producer, who has no delay, need not wait. -/
theorem Producer.spaced_next (producer : Producer)
    (hspaced : tally.Spaced config.stages timing.wait)
    (hown : ∀ index < tally.stamped 0, tally.Before 0 index (timing.wait 0) now)
    (hlate : now ≤ latest) :
    (producer.next now tally).Spaced config.stages timing.wait ∧
      ∀ index < (producer.next now tally).stamped 0,
        (producer.next now tally).Before 0 index (timing.wait 0) latest := by
  obtain ⟨pause, phase⟩ := producer
  cases phase with
  | write progress =>
      refine ⟨hspaced.stamp (by omega) fun index hlast => hown index (by omega), ?_⟩
      intro index hindex
      change index < (tally.stamp 0 now).stamped 0 at hindex
      rw [Tally.stamped_stamp, if_pos rfl] at hindex
      rcases Nat.lt_succ_iff_lt_or_eq.mp hindex with hold | rfl
      · exact ((hown index hold).later hlate).kept (Tally.times_stamp_kept tally 0 now _ _)
      · rw [timing.wait_zero]
        exact ⟨now, tally.times_stamp_new 0 now, hlate⟩
  | _ => exact ⟨hspaced, fun index hindex => (hown index hindex).later hlate⟩

/-- A turn of a worker keeps its new time away from the old ones, and itself punctual. -/
theorem Punctual.turn {worker : Worker} (hcount : 0 < config.count ∧ config.count < wordLimit)
    (hlayout : (Layout.mk config.stages).Valid) (hvalid : tally.Valid config.stages config.count)
    (hshows : context.Shows config place tally)
    (hfollows : worker.Follows config context.gates tally)
    (hspaced : tally.Spaced config.stages timing.wait)
    (hlasts : now + timing.wait worker.slot ≤ Stage.delayEnd now (config.delay worker.slot))
    (hlate : now ≤ latest)
    (hreleased : ∀ slot ≤ config.stages, ∀ index < tally.through slot,
      tally.Before slot index (timing.wait slot) latest)
    (h : worker.Punctual timing tally now) :
    (worker.next now tally).Spaced config.stages timing.wait ∧
      (worker.turn now context).2.Punctual timing (worker.next now tally) latest := by
  have hturn := hfollows.turn now hcount hlayout hvalid hshows
  cases worker with
  | producer worker =>
      obtain ⟨hnext, hown⟩ := worker.spaced_next hspaced h.own hlate
      exact ⟨hnext, hown, fun stage hstage => by cases hstage⟩
  | stage worker =>
      obtain ⟨hfirst, hlast, hstands⟩ := hfollows
      have hwaits := h.waits worker rfl
      have hown : ∀ index < tally.completed worker.number,
          tally.Before worker.number index (timing.wait worker.number) now := by
        intro index hindex
        apply h.own
        exact Nat.lt_of_lt_of_eq hindex (tally.through_pos hfirst).symm
      refine ⟨hwaits.spaced hstands hspaced hown, fun index hindex => ?_, fun stage hstage => ?_⟩
      · rw [slot_turn] at hindex ⊢
        apply hwaits.own hlate hown
        exact Nat.lt_of_lt_of_eq hindex (Tally.through_pos _ hfirst)
      · cases hstage
        exact hwaits.turn hshows.config hlasts hlate (hreleased (worker.number - 1) (by omega))
          hstands hturn.follows.2.2

end

end Worker

namespace Crew

open Worker

/-- The readings that the workers hold, with that of one of them set. -/
def hold (held : Nat → Option Nat) (index : Nat) (reading : Option Nat) : Nat → Option Nat :=
  fun other => if other = index then reading else held other

theorem hold_none {held : Nat → Option Nat} {index other reading : Nat}
    (h : hold held index none other = some reading) : held other = some reading := by
  simp only [hold] at h
  split at h
  · cases h
  · exact h

/-- The times kept their distances so far, and every worker is punctual at the reading it holds or,
if it holds none, at the latest one. -/
structure Punctual (crew : Crew) {config : Run.Config} (timing : config.Timing) (tally : Tally)
    (held : Nat → Option Nat) (latest : Nat) : Prop where
  taken : ∀ index now, held index = some now → now ≤ latest ∧ timing.reads now
  bounds : ∀ slot, ∀ time ∈ tally.times slot, timing.reads time
  spaced : tally.Spaced config.stages timing.wait
  workers : ∀ (index : Nat) worker, crew.workers[index]? = some worker →
    worker.Punctual timing tally ((held index).getD latest)

section Punctual

variable {crew : Crew} {config : Run.Config} {timing : config.Timing} {place : Storage.Place}
  {tally : Tally} {held : Nat → Option Nat} {latest : Nat} (hstep : crew.InStep config place tally)
  (h : crew.Punctual timing tally held latest)

include h

theorem Punctual.floor_le (index : Nat) : (held index).getD latest ≤ latest := by
  cases hheld : held index with
  | none => exact Nat.le_refl _
  | some now => exact (h.taken index now hheld).1

theorem Punctual.read (index : Nat) {now : Nat} (hlate : latest ≤ now) (hreads : timing.reads now) :
    crew.Punctual timing tally (hold held index (some now)) now := by
  refine ⟨fun other reading hreading => ?_, h.bounds, h.spaced, fun other worker hworker => ?_⟩
  · simp only [hold] at hreading
    split at hreading
    · cases hreading
      exact ⟨Nat.le_refl _, hreads⟩
    · obtain ⟨hle, hbound⟩ := h.taken other reading hreading
      exact ⟨Nat.le_trans hle hlate, hbound⟩
  · apply (h.workers other worker hworker).later
    simp only [hold]
    split
    · exact Nat.le_trans (h.floor_le other) hlate
    · cases hheld : held other with
      | none => exact hlate
      | some reading => exact Nat.le_refl _

/-- A reading that is not used is given up. -/
theorem Punctual.drop (index : Nat) :
    crew.Punctual timing tally (hold held index none) latest := by
  refine ⟨fun other now hreading => h.taken other now (hold_none hreading), h.bounds, h.spaced,
    fun other worker hworker => ?_⟩
  have hown := h.workers other worker hworker
  simp only [hold]
  split
  · exact hown.later (h.floor_le other)
  · exact hown

/-- Only the workers count, and not what they work on. -/
theorem Punctual.move (context : Run.Context) :
    Punctual ⟨context, crew.workers⟩ timing tally held latest :=
  ⟨h.taken, h.bounds, h.spaced, h.workers⟩

include hstep

/-- What a worker has let through is, with its delay, before the latest reading. -/
theorem Punctual.released : ∀ slot ≤ config.stages, ∀ index < tally.through slot,
    tally.Before slot index (timing.wait slot) latest := by
  intro slot hslot index hindex
  obtain ⟨other, worker, hother, rfl⟩ := hstep.worker_of_slot hslot
  exact ((h.workers other worker hother).own index hindex).later (h.floor_le other)

theorem Punctual.work {index now : Nat} {worker : Worker}
    (hworker : crew.workers[index]? = some worker) (hheld : held index = some now) :
    Punctual ⟨(worker.turn now crew.context).1,
      crew.workers.set index (worker.turn now crew.context).2⟩ timing (worker.next now tally)
        (hold held index none) latest := by
  obtain ⟨hlate, hreads⟩ := h.taken index now hheld
  have hfollows := hstep.follows worker (List.mem_of_getElem? hworker)
  have hturn := hfollows.turn now hstep.count hstep.layout hstep.valid hstep.shows
  have hslot := hfollows.slot_le
  have hown := h.workers index worker hworker
  rw [hheld] at hown
  obtain ⟨hspaced, hpunctual⟩ := hown.turn hstep.count hstep.layout hstep.valid hstep.shows hfollows
    h.spaced (timing.lasts now hreads _ hslot) hlate (h.released hstep)
  refine ⟨fun other reading hreading => h.taken other reading (hold_none hreading),
    fun slot time htime => ?_, hspaced, fun other another hother => ?_⟩
  · rcases hturn.turn.times_cases htime with hold | rfl
    · exact h.bounds slot time hold
    · exact hreads
  · rw [List.getElem?_set] at hother
    by_cases hsame : index = other
    · subst hsame
      obtain ⟨hlt, -⟩ := List.getElem?_eq_some_iff.mp hworker
      simp only [if_true, hlt] at hother
      cases hother
      simp only [hold, if_true]
      exact hpunctual
    · rw [if_neg hsame] at hother
      simp only [hold, if_neg (Ne.symm hsame)]
      apply (h.workers other another hother).others _ hturn.turn
      · exact Ne.symm (hstep.role_ne hworker hother hsame)
      · rintro stage rfl
        exact (hstep.follows _ (List.mem_of_getElem? hother)).1

/-- A turn with the reading that its worker holds. -/
theorem Punctual.step {index now : Nat} (hheld : held index = some now) :
    (crew.step (.work index now)).Punctual timing (crew.next tally (.work index now))
      (hold held index none) latest := by
  cases hworker : crew.workers[index]? with
  | none =>
      simp only [Crew.step, Crew.next, hworker]
      exact h.drop index
  | some worker =>
      simp only [Crew.step, Crew.next, hworker]
      exact h.work hstep hworker hheld

end Punctual

theorem start_punctual (context : Run.Context) {config : Run.Config} (timing : config.Timing)
    (pause : Role → Pause) : (start context pause).Punctual timing .start (fun _ => none) 0 := by
  constructor
  case taken => simp
  case bounds =>
    intro slot time htime
    cases htime
  case spaced => exact Tally.start_spaced _ _
  case workers =>
    intro index worker hworker
    obtain ⟨role, -, rfl⟩ := List.mem_map.mp (List.mem_of_getElem? hworker)
    constructor
    · intro record hrecord
      have hnone : ∀ slot, Tally.start.through slot = 0 := by
        rintro (_ | slot) <;> rfl
      rw [hnone] at hrecord
      cases hrecord
    · rintro stage hstage
      cases role with
      | producer => cases hstage
      | stage number =>
          cases hstage
          trivial

end Crew

end GatedPipeline
