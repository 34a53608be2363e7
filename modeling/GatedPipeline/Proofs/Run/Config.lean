import GatedPipeline.Proofs.Arithmetic
import GatedPipeline.Run.Config

/-!
The configurations that a run is made of: which are accepted, and what follows for the interval of
the accepted ones.
-/

namespace GatedPipeline.Run.Config

structure Accepted (config : Config) : Prop where
  stages_pos : 0 < config.stages
  stages_le : config.stages ≤ maxStages
  count_pos : 0 < config.count
  throughput_pos : config.throughput ≠ some 0
  throughput_le : ∀ rate, config.throughput = some rate → rate ≤ maxThroughput
  delays_le : config.delays.length ≤ config.stages
  cores_le : config.cores.length ≤ config.stages + 1
  core_lt : ∀ core ∈ config.cores, core < maxCore

/-- Exactly what can be run is accepted. -/
theorem validate_ok_iff {config : Config} : config.validate = .ok () ↔ config.Accepted := by
  have hcores : config.cores.find? (maxCore ≤ ·) = none ↔
      ∀ core ∈ config.cores, core < maxCore := by
    simp only [List.find?_eq_none, decide_eq_true_eq, Nat.not_le]
  constructor
  · intro h
    simp only [validate, check_ok_iff] at h
    obtain ⟨hstages, hmany, hcount, hzero, h⟩ := h
    split at h <;> simp only [check_ok_iff] at h
    · rename_i rate hrate
      obtain ⟨hfast, hdelays, hlong, h⟩ := h
      split at h
      · cases h
      · rename_i hfind
        refine ⟨by omega, by omega, by omega, hzero, ?_, by omega, by omega, hcores.mp hfind⟩
        rintro other hother
        obtain rfl := Option.some.inj (hrate.symm.trans hother)
        omega
    · rename_i hrate
      obtain ⟨hdelays, hlong, h⟩ := h
      split at h
      · cases h
      · rename_i hfind
        refine ⟨by omega, by omega, by omega, hzero, ?_, by omega, by omega, hcores.mp hfind⟩
        rintro other hother
        cases hrate.symm.trans hother
  · intro h
    have hstages := h.stages_pos
    have hmany := h.stages_le
    have hcount := h.count_pos
    have hdelays := h.delays_le
    have hlong := h.cores_le
    simp only [validate, check_ok_iff, hcores.mpr h.core_lt]
    refine ⟨by omega, by omega, by omega, h.throughput_pos, ?_⟩
    cases hrate : config.throughput with
    | none =>
        simp only [check_ok_iff]
        exact ⟨by omega, by omega, rfl⟩
    | some rate =>
        have hfast := h.throughput_le rate hrate
        simp only [check_ok_iff]
        exact ⟨by omega, by omega, by omega, rfl⟩

/-- A configuration that is accepted has an interval. -/
theorem Accepted.interval_ok {config : Config} (h : config.Accepted) :
    ∃ interval, config.interval = .ok interval := by
  unfold interval
  cases hgiven : config.throughput with
  | none => exact ⟨0, rfl⟩
  | some rate =>
      have hpositive : rate ≠ 0 := by
        rintro rfl
        exact h.throughput_pos hgiven
      exact ⟨_, if_neg hpositive⟩

/-- No accepted rate is above one record each nanosecond, so no interval is rounded down to none. -/
theorem Accepted.interval_bounds {config : Config} (h : config.Accepted) {rate : Nat}
    (hrate : config.throughput = some rate) : config.interval = .ok (second / rate) ∧
      1 ≤ second / rate ∧ second / rate ≤ second := by
  have hpositive : rate ≠ 0 := by
    rintro rfl
    exact h.throughput_pos hrate
  have hbound : rate ≤ second := h.throughput_le rate hrate
  refine ⟨?_, Nat.div_pos hbound (Nat.pos_of_ne_zero hpositive), Nat.div_le_self second rate⟩
  unfold interval
  rw [hrate]
  exact if_neg hpositive

end GatedPipeline.Run.Config
