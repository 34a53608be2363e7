import GatedPipeline.Proofs.Worker.Order
import GatedPipeline.Proofs.Worker.Punctual

/-!
How far apart the times of the records are. If the readings of the clock never decrease, the time of
a stage is later than that of the stage before it by that one's delay at least, on every record, and
a stage is at least its own delay later on a record than on the record before. Reading the clock is
an action of its own here, so that others read and work between a worker's reading and its turn.
-/

namespace GatedPipeline

namespace Crew

open Worker

/-- What is done in a run whose workers read the clock before they use the reading. Worker `index`
reads the clock by `read`, and `work` is its turn with the reading that it took last. -/
inductive Action where
  | read (index now : Nat)
  | work (index : Nat)
  | abort
  deriving DecidableEq, Repr

/-- The turns that are taken. Without a reading a worker takes none. -/
def steps (held : Nat → Option Nat) : List Action → List Step
  | [] => []
  | .read index now :: rest => steps (hold held index (some now)) rest
  | .work index :: rest =>
      match held index with
      | none => steps held rest
      | some now => .work index now :: steps (hold held index none) rest
  | .abort :: rest => .abort :: steps held rest

def readings : List Action → List Nat
  | [] => []
  | .read _ now :: rest => now :: readings rest
  | .work _ :: rest | .abort :: rest => readings rest

theorem Punctual.run {crew : Crew} {config : Run.Config} {timing : config.Timing}
    {place : Storage.Place} {tally : Tally} {held : Nat → Option Nat} {latest : Nat}
    (hstep : crew.InStep config place tally) (h : crew.Punctual timing tally held latest)
    (actions : List Action) (hforward : (latest :: readings actions).Pairwise (· ≤ ·))
    (hreads : ∀ now ∈ readings actions, timing.reads now) :
    ∃ held' latest', (crew.run (steps held actions)).Punctual timing
      (crew.tally tally (steps held actions)) held' latest' := by
  induction actions generalizing crew tally held latest with
  | nil => exact ⟨held, latest, h⟩
  | cons action rest ih =>
      cases action with
      | read index now =>
          simp only [readings, List.pairwise_cons, List.mem_cons, forall_eq_or_imp]
            at hforward hreads
          apply ih hstep (h.read index hforward.1.1 hreads.1) _ hreads.2
          exact List.pairwise_cons.mpr hforward.2
      | work index =>
          simp only [steps]
          cases hheld : held index with
          | none => exact ih hstep h hforward hreads
          | some now =>
              exact ih (hstep.step (.work index now)) (h.step hstep hheld) hforward hreads
      | abort => exact ih (hstep.step .abort) (h.move _) hforward hreads

/-- The time in a slot of a record, as the log has it. -/
def time (crew : Crew) (index slot : Nat) : Nat :=
  ((crew.context.log.record (crew.context.log.layout.viewAt index)).times.getD slot 0).toNat

/-- The distances of the times in the log, where a time counts once it has been stamped. By `hop`
two stages stamp the same record at least the delay of the first of them apart, and by `own` a stage
stamps two records in a row at least its own delay apart. By `complete` every stage has stamped a
record whose slots all hold a time, and by `whole` the delays of the stages below the last add up
between production and the last stage. -/
structure Apart (crew : Crew) (config : Run.Config) (history : List (Role × Log.Store)) :
    Prop where
  hop : ∀ stage index, 1 ≤ stage → stage ≤ config.stages →
    Stamped crew.context.log.layout history index stage →
      crew.time index (stage - 1) + config.delay (stage - 1) ≤ crew.time index stage
  own : ∀ stage index, 1 ≤ stage → stage ≤ config.stages →
    Stamped crew.context.log.layout history (index + 1) stage →
      crew.time index stage + config.delay stage ≤ crew.time (index + 1) stage
  production : ∀ index, Stamped crew.context.log.layout history (index + 1) 0 →
    crew.time index 0 ≤ crew.time (index + 1) 0
  complete : ∀ index,
    (crew.context.log.record (crew.context.log.layout.viewAt index)).isComplete →
      ∀ slot ≤ config.stages, Stamped crew.context.log.layout history index slot
  whole : ∀ index, Stamped crew.context.log.layout history index config.stages →
    crew.time index 0 + ((List.range' 1 (config.stages - 1)).map config.delay).sum ≤
      crew.time index config.stages

section InStep

variable {crew : Crew} {config : Run.Config} {place : Storage.Place} {tally : Tally}
  {history : List (Role × Log.Store)} (h : crew.InStep config place tally)

include h

/-- The times of a record as the log has them. -/
theorem InStep.times : ∀ index, (crew.context.log.record
    (crew.context.log.layout.viewAt index)).times = (List.range (config.stages + 1)).map
      fun slot => UInt64.ofNat ((tally.times slot).getD index 0) := by
  intro index
  rw [h.shows.layout, h.shows.record, Record.times, List.range_succ_eq_map, List.map_cons,
    List.drop_one, List.tail_cons, List.map_map]
  rfl

theorem InStep.time_eq {index slot time : Nat} (hslot : slot ≤ config.stages)
    (htime : (tally.times slot)[index]? = some time) (hsmall : time < wordLimit) :
    crew.time index slot = time := by
  have hlt : slot < config.stages + 1 := by omega
  simp only [wordLimit] at hsmall
  simp only [Crew.time, h.times, List.getD_eq_getElem?_getD, List.getElem?_map,
    List.getElem?_range hlt, Option.map_some, Option.getD_some, htime, UInt64.toNat_ofNat']
  omega

theorem InStep.time_stamped (hsmall : ∀ slot, ∀ time ∈ tally.times slot, time < wordLimit)
    {index slot : Nat} (hslot : slot ≤ config.stages) (hstamp : index < tally.stamped slot) :
    (tally.times slot)[index]? = some (crew.time index slot) := by
  have hlt : index < (tally.times slot).length := hstamp
  have hget := List.getElem?_eq_getElem hlt
  rw [h.time_eq hslot hget (hsmall slot _ (List.getElem_mem hlt))]
  exact hget

theorem InStep.time_before (hsmall : ∀ slot, ∀ time ∈ tally.times slot, time < wordLimit)
    {index slot wait bound : Nat} (hslot : slot ≤ config.stages)
    (hbefore : tally.Before slot index wait bound) : crew.time index slot + wait ≤ bound := by
  obtain ⟨time, htime, hbound⟩ := hbefore
  rwa [h.time_eq hslot htime (hsmall slot _ (List.mem_of_getElem? htime))]

private theorem InStep.apart {held : Nat → Option Nat} {latest : Nat}
    (hpunctual : crew.Punctual (.unsaturated config) tally held latest)
    (hstamped : ∀ index slot, slot ≤ config.stages →
      (Stamped crew.context.log.layout history index slot ↔ index < tally.stamped slot)) :
    crew.Apart config history := by
  have hsmall : ∀ slot, ∀ time ∈ tally.times slot, time < wordLimit := fun slot time htime =>
    hpunctual.bounds slot time htime 0 (Nat.zero_le _)
  have hfound : ∀ index slot, slot ≤ config.stages →
      Stamped crew.context.log.layout history index slot →
        (tally.times slot)[index]? = some (crew.time index slot) :=
    fun index slot hslot hstamp =>
      h.time_stamped hsmall hslot ((hstamped index slot hslot).mp hstamp)
  have hown : ∀ stage index, stage ≤ config.stages →
      Stamped crew.context.log.layout history (index + 1) stage →
        crew.time index stage + config.delay stage ≤ crew.time (index + 1) stage := by
    intro stage index hlast hstamp
    apply h.time_before hsmall hlast
    exact hpunctual.spaced.own stage hlast index _ (hfound _ _ hlast hstamp)
  constructor
  case hop =>
    intro stage index hfirst hlast hstamp
    apply h.time_before hsmall (by omega)
    exact hpunctual.spaced.hop stage hfirst hlast index _ (hfound _ _ hlast hstamp)
  case own => exact fun stage index _ hlast hstamp => hown stage index hlast hstamp
  case production => exact fun index hstamp => hown 0 index (Nat.zero_le _) hstamp
  case complete =>
    intro index hcomplete slot hslot
    rw [hstamped index slot hslot]
    rw [Record.isComplete, h.times, List.all_map, List.all_eq_true] at hcomplete
    have hword := hcomplete slot (List.mem_range.mpr (by omega))
    simp only [Function.comp_apply, ne_eq, decide_not, Bool.not_eq_eq_eq_not, Bool.not_true,
      decide_eq_false_iff_not] at hword
    -- a slot that has no time reads as zero
    apply Decidable.by_contra
    intro hnone
    apply hword
    have hbeyond : (tally.times slot)[index]? = none := List.getElem?_eq_none (Nat.not_lt.mp hnone)
    rw [List.getD_eq_getElem?_getD, hbeyond]
    rfl
  case whole =>
    intro index hstamp
    have hsome := h.layout.some_stage
    apply h.time_before hsmall (Nat.zero_le _)
    have hall := hpunctual.spaced.since_production (Nat.le_refl _)
      (hfound index config.stages (Nat.le_refl _) hstamp)
    have hrange : List.range config.stages = 0 :: List.range' 1 (config.stages - 1) := by
      have hlength : config.stages = config.stages - 1 + 1 := (Nat.sub_add_cancel hsome).symm
      rw [List.range_eq_range', hlength, List.range'_succ]
      rfl
    rw [hrange, List.map_cons, List.sum_cons, Run.Config.Timing.wait_zero, Nat.zero_add] at hall
    exact hall

end InStep

/-- On a context that has just been made, in whatever order the workers read the clock and take
their turns: if no reading is earlier than one before it and no delay takes a reading out of the
words, the times of the records keep their distances. -/
theorem times_apart {storage : Storage} {config : Run.Config} {context : Run.Context}
    (htree : storage.IsTree) (hcreate : Run.Context.create storage config = .ok context)
    (pause : Role → Pause) (actions : List Action)
    (hforward : (readings actions).Pairwise (· ≤ ·))
    (hsmall : ∀ now ∈ readings actions, ∀ stage ≤ config.stages,
      now + config.delay stage < wordLimit) :
    let turns := steps (fun _ => none) actions
    ((start context pause).run turns).Apart config ((start context pause).history turns) := by
  intro turns
  obtain ⟨place, hfresh⟩ := Run.Context.create_fresh htree hcreate
  have hstart := start_inStep hfresh pause
  obtain ⟨held, latest, hlater⟩ := (start_punctual context (.unsaturated config) pause).run hstart
    actions (List.pairwise_cons.mpr ⟨fun now _ => Nat.zero_le now, hforward⟩) hsmall
  have hrun := hstart.run turns
  apply hrun.apart hlater
  intro index slot hslot
  have hwrites := hstart.writes_run (show slot + 1 < config.stages + 2 by omega) index turns
  rw [Tally.writes_start, List.nil_append] at hwrites
  rw [hrun.shows.layout, Stamped, ← hwrites, Tally.writes_slot]

/-- So many turns of each of two stages and their producer; two of them read the clock well before
the turn in which they use the reading. -/
def readRounds (turns : Nat) : List Action :=
  (List.range turns).flatMap fun turn =>
    [.read 2 turn, .read 1 turn, .work 2, .work 1, .read 0 turn, .work 0]

/-- Two records and two stages, the first with a delay of 5. -/
theorem times_apart_two_stages : ∃ context,
    Run.Context.create .empty ((Run.Config.plain 2 2 "/out").withDelay 1 5) = .ok context ∧
      let turns := steps (fun _ => none) (readRounds 30)
      let crew := (start context fun _ => .spinning).run turns
      crew.Apart ((Run.Config.plain 2 2 "/out").withDelay 1 5)
          ((start context fun _ => .spinning).history turns) ∧
        (List.range 2).map (fun index => (List.range 3).map (crew.time index)) =
          [[3, 4, 12], [5, 14, 23]] := by
  have hshown : (Run.Context.create .empty
      ((Run.Config.plain 2 2 "/out").withDelay 1 5)).toOption.map (fun context =>
        let crew := (start context fun _ => .spinning).run (steps (fun _ => none) (readRounds 30))
        (List.range 2).map fun index => (List.range 3).map (crew.time index)) =
          some [[3, 4, 12], [5, 14, 23]] := by
    decide +kernel
  cases hcreate : Run.Context.create .empty ((Run.Config.plain 2 2 "/out").withDelay 1 5) with
  | error problem => simp [hcreate, Except.toOption] at hshown
  | ok context =>
      simp only [hcreate, Except.toOption, Option.map_some, Option.some.injEq] at hshown
      exact ⟨context, rfl, times_apart Storage.empty_isTree hcreate _ (readRounds 30)
        (by decide +kernel) (by decide +kernel), hshown⟩

end Crew

end GatedPipeline
