import Mathlib.Algebra.Order.Field.Rat
import Mathlib.Tactic.NormNum
import GatedPipeline.Proofs.Worker.Paced

/-!
How near pacing keeps to a rate. The time between two records is a second divided by the rate, and
what the division leaves is lost for every record. So a rate is kept exactly if it divides the
second; of any other the deadlines are early by that rest, and the records come faster than at the
rate, though never at twice the rate.
-/

namespace GatedPipeline

namespace Run.Config

/-- What is lost adds up over the records. -/
theorem deadline_add_rest (rate index : Nat) :
    index * (second / rate) * rate + index * (second % rate) = index * second := by
  rw [Nat.mul_assoc, ← Nat.mul_add, Nat.div_add_mod']

/-- An interval of one nanosecond or more is cut by less than a half. -/
theorem second_lt_twice {rate : Nat} (hpositive : 1 ≤ second / rate) :
    second < 2 * (second / rate * rate) := by
  have hrate : 0 < rate := by
    by_contra hnone
    obtain rfl : rate = 0 := by omega
    simp at hpositive
  have hrest : second % rate < rate := Nat.mod_lt _ hrate
  have hsum := Nat.div_add_mod' second rate
  have hwhole : rate ≤ second / rate * rate := Nat.le_mul_of_pos_left rate hpositive
  omega

end Run.Config

namespace Crew

open Worker

/-- So many records in so many nanoseconds, behind the first. For each record at most the remainder
of `second` by the rate is lost. A rate that divides the second is therefore not exceeded, and no
rate is doubled. -/
structure Keeps (rate records elapsed : Nat) : Prop where
  short : records * second ≤ elapsed * rate + records * (second % rate)
  exact_of_dvd : rate ∣ second → records * second ≤ elapsed * rate
  twice : records ≠ 0 → records * second < 2 * (elapsed * rate)

/-- What a deadline keeps, being at it or behind it keeps. -/
theorem keeps_of_le {rate records elapsed : Nat} (hpositive : 1 ≤ second / rate)
    (h : records * (second / rate) ≤ elapsed) : Keeps rate records elapsed := by
  have hshort : records * second ≤ elapsed * rate + records * (second % rate) := by
    rw [← Run.Config.deadline_add_rest rate records]
    exact Nat.add_le_add_right (Nat.mul_le_mul_right rate h) _
  refine ⟨hshort, fun hdivides => ?_, fun hsome => ?_⟩
  · rwa [Nat.mod_eq_zero_of_dvd hdivides, Nat.mul_zero, Nat.add_zero] at hshort
  · calc records * second
        < records * (2 * (second / rate * rate)) :=
          Nat.mul_lt_mul_of_pos_left (Run.Config.second_lt_twice hpositive)
            (Nat.pos_of_ne_zero hsome)
      _ = 2 * (records * (second / rate) * rate) := by
          rw [Nat.mul_left_comm, Nat.mul_assoc]
      _ ≤ 2 * (elapsed * rate) := Nat.mul_le_mul_left 2 (Nat.mul_le_mul_right rate h)

/-- What a rate comes to when records are produced at its interval. The deadline of a record is
early by what is lost for all records before it. By `deadline_iff` a deadline behind the first
record is kept exactly where nothing is lost. By `produced` the records are produced no faster than
their deadlines allow, however the workers take turns. -/
structure RateLaw (config : Run.Config) (rate : Nat) : Prop where
  given : config.interval = .ok (second / rate)
  due : ∀ (progress : Producer.Progress) time, progress.interval = second / rate →
    Producer.due progress = .ok time → time = progress.start + progress.index * (second / rate)
  deadline : ∀ index : Nat, ((index * (second / rate) : Nat) : ℚ) =
    index * second / rate - index * (second % rate : Nat) / rate
  deadline_iff : ∀ index : Nat,
    (index * second / rate : ℚ) ≤ (index * (second / rate) : Nat) ↔ index = 0 ∨ rate ∣ second
  produced : ∀ storage context, storage.IsTree → Run.Context.create storage config = .ok context →
    ∀ (pause : Role → Pause) (steps : List Step),
      Producer.Clocked (readingsOf config.stages steps) →
        ∀ index < ((start context pause).run steps).context.log.appended,
          ∃ first, (readingsOf config.stages steps)[1]? = some first ∧
            first ≤ ((start context pause).run steps).time index 0 ∧
            Keeps rate index (((start context pause).run steps).time index 0 - first)

/-- Every accepted rate is kept up to what the division by it leaves, whatever the pause and the
turns of the workers, as long as the clock does not go back. -/
theorem rate_law {config : Run.Config} {rate : Nat} (hvalid : config.validate = .ok ())
    (hrate : config.throughput = some rate) : RateLaw config rate := by
  obtain ⟨hinterval, hpositive, -⟩ :=
    (Run.Config.validate_ok_iff.mp hvalid).interval_bounds hrate
  have hsome : 0 < rate := Nat.pos_of_ne_zero fun hzero => by simp [hzero] at hpositive
  have hrational : (0 : ℚ) < rate := Nat.cast_pos.mpr hsome
  constructor
  case given => exact hinterval
  case due =>
    intro progress time hgiven hdue
    rw [← hgiven]
    exact Producer.due_exact hdue
  case deadline =>
    intro index
    have hsum := congrArg (Nat.cast : Nat → ℚ) (Run.Config.deadline_add_rest rate index)
    rw [← sub_div, eq_div_iff (ne_of_gt hrational)]
    push_cast at hsum ⊢
    exact eq_sub_of_add_eq hsum
  case deadline_iff =>
    intro index
    have hsum := Run.Config.deadline_add_rest rate index
    rw [div_le_iff₀ hrational, ← Nat.cast_mul, ← Nat.cast_mul, Nat.cast_le, Nat.dvd_iff_mod_eq_zero,
      ← Nat.mul_eq_zero]
    omega
  case produced =>
    intro storage context htree hcreate pause steps hclocked index hindex
    obtain ⟨place, hfresh⟩ := Run.Context.create_fresh htree hcreate
    have hstart := start_inStep hfresh pause
    have hpaced : (start context pause).Paced context.config (second / rate) (pause .producer) []
        .start := start_paced context pause
    rw [hfresh.config] at hpaced
    have honTime :=
      (hpaced.run hstart hinterval hpositive steps hclocked).onTime (hstart.run steps)
    obtain ⟨first, hfirst, hlate⟩ := honTime.stamped index hindex
    exact ⟨first, hfirst, by omega, keeps_of_le hpositive (by omega)⟩

/-- Three records a second. What is lost is a third of a nanosecond for each. -/
theorem rate_law_thirds :
    let config : Run.Config := ⟨2, 3, some 3, "/out", 0, 500000, 1000000000, [], []⟩
    let steps := [5, 5, 5, 5, 6, 6, 333333338, 333333340].map (Step.work 2)
    RateLaw config 3 ∧ ∃ context, Run.Context.create .empty config = .ok context ∧
      let crew := (start context fun _ => .spinning).run steps
      (List.range crew.context.log.appended).map (crew.time · 0) = [5, 333333340] ∧
        Keeps 3 1 333333335 := by
  intro config steps
  have hlaw : RateLaw config 3 :=
    rate_law (show config.validate = .ok () by decide) (show config.throughput = some 3 from rfl)
  have hclocked : Producer.Clocked (readingsOf 2 steps) := ⟨by decide +kernel, by decide +kernel⟩
  have hshown : (Run.Context.create .empty config).toOption.map (fun context =>
      let crew := (start context fun _ => .spinning).run steps
      (crew.context.log.appended, crew.time 0 0, crew.time 1 0)) = some (2, 5, 333333340) := by
    decide +kernel
  cases hcreate : Run.Context.create .empty config with
  | error problem => simp [hcreate, Except.toOption] at hshown
  | ok context =>
      simp only [hcreate, Except.toOption, Option.map_some, Option.some.injEq,
        Prod.mk.injEq] at hshown
      obtain ⟨happended, hzero, hone⟩ := hshown
      obtain ⟨first, hfirst, -, hkeeps⟩ := hlaw.produced _ context Storage.empty_isTree hcreate
        (fun _ => .spinning) steps hclocked 1 (by rw [happended]; decide)
      obtain rfl : 5 = first := Option.some.inj hfirst
      rw [hone] at hkeeps
      refine ⟨hlaw, context, rfl, ?_, hkeeps⟩
      simp only [happended, List.range_succ, List.range_zero, List.map_append, List.map_cons,
        List.map_nil, hzero, hone]
      rfl

/-- At an accepted rate of six records in ten nanoseconds one is produced in each. -/
theorem rate_law_exceeded :
    let config : Run.Config := ⟨2, 3, some 600000000, "/out", 0, 500000, 1000000000, [], []⟩
    let steps := [100, 100, 100, 100, 101, 101, 102, 102].map (Step.work 2)
    config.validate = .ok () ∧ config.interval = .ok 1 ∧
      (1 * 1 : ℚ) < 1 * second / 600000000 ∧ Producer.Clocked (readingsOf 2 steps) ∧
      ∃ context, Run.Context.create .empty config = .ok context ∧
        let crew := (start context fun _ => .spinning).run steps
        (List.range crew.context.log.appended).map (crew.time · 0) = [100, 101, 102] ∧
          (102 - 100) * 600000000 < 2 * second := by
  intro config steps
  have hshown : (Run.Context.create .empty config).toOption.map (fun context =>
      let crew := (start context fun _ => .spinning).run steps
      (List.range crew.context.log.appended).map (crew.time · 0)) = some [100, 101, 102] := by
    decide +kernel
  refine ⟨by decide, by decide, by norm_num [second], ⟨by decide +kernel, by decide +kernel⟩, ?_⟩
  cases hcreate : Run.Context.create .empty config with
  | error problem => simp [hcreate, Except.toOption] at hshown
  | ok context =>
      simp only [hcreate, Except.toOption, Option.map_some, Option.some.injEq] at hshown
      exact ⟨context, rfl, hshown, by decide⟩

end Crew

end GatedPipeline
