import GatedPipeline.Proofs.Worker.Delays
import GatedPipeline.Proofs.Worker.Finished
import GatedPipeline.Proofs.Worker.Paced
import GatedPipeline.Run.Order

/-!
What the log of a finished run shows. When all workers have returned without failing and the clock
has not gone back, every time was written, no record has a stage before the one in front of it, no
stage has a record before the one in front of it, and the delays were kept. The intervals of a paced
run can only be read off the log if its first record came in time: nothing keeps the producer from
being late with it, and then it catches up.
-/

namespace GatedPipeline

namespace Run.Order

theorem neverFalls_iff (times : List Nat) : neverFalls times = true ↔ times.IsChain (· ≤ ·) := by
  induction times with
  | nil => exact iff_of_true rfl .nil
  | cons one rest ih =>
      cases rest with
      | nil => exact iff_of_true rfl (.singleton one)
      | cons next rest =>
          rw [neverFalls, Bool.and_eq_true, decide_eq_true_eq, ih, List.isChain_cons_cons]

theorem neverFalls_map_range {length : Nat} {time : Nat → Nat} :
    neverFalls ((List.range length).map time) = true ↔
      ∀ index, index + 1 < length → time index ≤ time (index + 1) := by
  simp [neverFalls_iff, List.isChain_iff_getElem]

/-- Of so many rows only the first and the last count. -/
theorem paced_map_range {config : Config} (hcount : 0 < config.count) {row : Nat → List Nat}
    {interval : Nat} (hinterval : config.interval = .ok interval) :
    paced config ((List.range config.count).map row) = true ↔
      (row 0).getD 0 0 + (config.count - 2) * interval ≤ (row (config.count - 1)).getD 0 0 := by
  have hsome : config.count ≠ 0 := Nat.ne_of_gt hcount
  simp [paced, hinterval, Except.toOption, List.head?_range, List.getLast?_range, hsome]

end Run.Order

namespace Crew

open Worker Run.Order

section InStep

variable {crew : Crew} {config : Run.Config} {place : Storage.Place} {tally : Tally}
  (h : crew.InStep config place tally)

include h

/-- The rows of the log are the times of its records. -/
theorem InStep.rows_eq : rows crew.context.log = (List.range (tally.stamped 0)).map fun index =>
    (List.range (config.stages + 1)).map (crew.time index) := by
  have hlog := h.shows.log
  rw [Run.Order.rows, Tailer.entries_eq hlog.sound hlog.framed hlog.fits, List.map_map]
  apply List.map_congr_left
  intro index _
  change (crew.context.log.record (crew.context.log.layout.viewAt index)).times.map UInt64.toNat = _
  rw [h.times index, List.map_map]
  apply List.map_congr_left
  intro slot hslot
  have hslot := List.mem_range.mp hslot
  simp [Crew.time, h.times index, hslot]

/-- With so many records in all slots. -/
private theorem InStep.rows_full (hok : crew.Succeeded) :
    rows crew.context.log = (List.range config.count).map fun index =>
      (List.range (config.stages + 1)).map (crew.time index) := by
  rw [h.rows_eq, h.stamped_all hok 0 (Nat.zero_le _)]

end InStep

/-- What the rows of a finished run show. Every time was written, each record went from stage to
stage, each stage took the records in order, and each waited for the delay of the stage before it.
-/
structure Ordered (config : Run.Config) (rows : List (List Nat)) : Prop where
  stamped : allStamped rows = true
  slots : slotsInOrder rows = true
  records : recordsInOrder config.stages rows = true
  delays : delaysRespected config rows = true

private theorem InStep.ordered {crew : Crew} {config : Run.Config} {place : Storage.Place}
    {tally : Tally} (h : crew.InStep config place tally) {held : Nat → Option Nat} {latest : Nat}
    (hpunctual : crew.Punctual ((Run.Config.Timing.unsaturated config).also (0 < ·)) tally held
      latest) (hok : crew.Succeeded) : Ordered config (rows crew.context.log) := by
  have hsmall : ∀ slot, ∀ time ∈ tally.times slot, time < wordLimit := fun slot time htime =>
    (hpunctual.bounds slot time htime).1 0 (Nat.zero_le _)
  have hfound : ∀ index < config.count, ∀ slot ≤ config.stages,
      (tally.times slot)[index]? = some (crew.time index slot) := fun index hindex slot hslot =>
    h.time_stamped hsmall hslot (Nat.lt_of_lt_of_eq hindex (h.stamped_all hok slot hslot).symm)
  have hhop : ∀ index < config.count, ∀ slot < config.stages,
      crew.time index slot + config.delay slot ≤ crew.time index (slot + 1) := by
    intro index hindex slot hslot
    apply h.time_before hsmall (Nat.le_of_lt hslot)
    exact hpunctual.spaced.hop (slot + 1) (Nat.succ_pos slot) hslot index _
      (hfound index hindex (slot + 1) hslot)
  rw [h.rows_full hok]
  constructor
  case stamped =>
    simp only [allStamped, List.all_map, List.all_eq_true, List.mem_range, Function.comp_apply,
      decide_eq_true_eq]
    intro index hindex slot hslot
    have hpositive := (hpunctual.bounds slot _ (List.mem_of_getElem?
      (hfound index hindex slot (Nat.lt_succ_iff.mp hslot)))).2
    exact Nat.ne_of_gt hpositive
  case slots =>
    simp only [slotsInOrder, List.all_map, List.all_eq_true, List.mem_range, Function.comp_apply,
      neverFalls_map_range]
    intro index hindex slot hslot
    exact Nat.le_trans (Nat.le_add_right _ _) (hhop index hindex slot (by omega))
  case records =>
    simp only [recordsInOrder, List.all_eq_true, List.mem_range, List.map_map]
    intro slot hslot
    have hcolumn : (fun row : List Nat => row.getD slot 0) ∘ (fun index =>
        (List.range (config.stages + 1)).map (crew.time index)) = (crew.time · slot) := by
      funext index
      simp [hslot]
    rw [hcolumn, neverFalls_map_range]
    intro index hindex
    have hslot' := Nat.lt_succ_iff.mp hslot
    apply Nat.le_trans (Nat.le_add_right _ (config.delay slot))
    apply h.time_before hsmall hslot'
    exact hpunctual.spaced.own slot hslot' index _ (hfound (index + 1) hindex slot hslot')
  case delays =>
    simp only [delaysRespected, List.all_map, List.all_eq_true, List.mem_range, Function.comp_apply,
      Bool.or_eq_true, decide_eq_true_eq]
    intro index hindex slot hslot
    right
    have hbefore := hhop index hindex slot hslot
    rw [Run.Config.delay] at hbefore
    simpa [show slot < config.stages + 1 by omega, hslot] using hbefore

/-- On a context that has just been made, in whatever order the workers read the clock and take
their turns, a run that finishes shows its records in order. -/
theorem rows_ordered {storage : Storage} {config : Run.Config} {context : Run.Context}
    (htree : storage.IsTree) (hcreate : Run.Context.create storage config = .ok context)
    (pause : Role → Pause) (actions : List Action)
    (hforward : (readings actions).Pairwise (· ≤ ·)) (hpositive : ∀ now ∈ readings actions, 0 < now)
    (hsmall : ∀ now ∈ readings actions, ∀ stage ≤ config.stages,
      now + config.delay stage < wordLimit)
    (hok : ((start context pause).run (steps (fun _ => none) actions)).Succeeded) :
    Ordered config
      (rows ((start context pause).run (steps (fun _ => none) actions)).context.log) := by
  obtain ⟨place, hfresh⟩ := Run.Context.create_fresh htree hcreate
  have hstart := start_inStep hfresh pause
  obtain ⟨held, latest, hlater⟩ := Punctual.run hstart
    (start_punctual context ((Run.Config.Timing.unsaturated config).also (0 < ·)) pause) actions
    (List.pairwise_cons.mpr ⟨fun now _ => Nat.zero_le now, hforward⟩)
    fun now hnow => ⟨hsmall now hnow, hpositive now hnow⟩
  exact (hstart.run _).ordered hlater hok

/-- A paced run shows its intervals if its first record was produced no later than the second one
was due. -/
theorem rows_paced {storage : Storage} {config : Run.Config} {context : Run.Context} {rate : Nat}
    (hrate : config.throughput = some rate) (htree : storage.IsTree)
    (hcreate : Run.Context.create storage config = .ok context) (pause : Role → Pause)
    (steps : List Step) (hclocked : Producer.Clocked (readingsOf config.stages steps))
    (hok : ((start context pause).run steps).Succeeded)
    (hfirst : ∀ first, (readingsOf config.stages steps)[1]? = some first →
      ((start context pause).run steps).time 0 0 ≤ first + second / rate) :
    paced config (rows ((start context pause).run steps).context.log) = true := by
  have haccepted := Run.Context.create_accepted hcreate
  obtain ⟨hinterval, hpositive, -⟩ := haccepted.interval_bounds hrate
  obtain ⟨place, hfresh⟩ := Run.Context.create_fresh htree hcreate
  have hstart := start_inStep hfresh pause
  have hpaced : (start context pause).Paced context.config (second / rate) (pause .producer) []
      .start := start_paced context pause
  rw [hfresh.config] at hpaced
  have hstep := hstart.run steps
  have honTime := (hpaced.run hstart hinterval hpositive steps hclocked).onTime hstep
  have hcount := hfresh.counted
  have happended : ((start context pause).run steps).context.log.appended = config.count :=
    hstep.shows.log.appended.trans (hstep.stamped_all hok 0 (Nat.zero_le _))
  obtain ⟨first, hread, hlast⟩ := honTime.stamped (config.count - 1) (by omega)
  have hearly := hfirst first hread
  rw [hstep.rows_full hok, paced_map_range hcount hinterval]
  simp only [List.getD_eq_getElem?_getD, List.getElem?_map, List.getElem?_range (Nat.succ_pos _),
    Option.map_some, Option.getD_some]
  rcases Nat.lt_or_ge config.count 2 with hfew | hmore
  · have hone : config.count = 1 := by omega
    simp [hone]
  · -- the interval by which the first record may be late is the one that is not counted
    have hsum : (config.count - 1) * (second / rate) =
        (config.count - 2) * (second / rate) + second / rate := by
      rw [← Nat.add_one_mul]
      congr 1
      omega
    omega

end Crew

end GatedPipeline
