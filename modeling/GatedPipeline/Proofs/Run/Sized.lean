import GatedPipeline.Proofs.Log.Capacity
import GatedPipeline.Proofs.Run.Fresh

/-!
The size of a run's log. A configuration is accepted for what it says, and the bytes for its records
are computed only when the run is made. Where they are a word the log takes every record of the run.
Where they are not, the run breaks as soon as its directory is made, though its configuration was
accepted: no layout gets there below some thirty-two quadrillion records.
-/

namespace GatedPipeline

/-- Nothing breaks in making a log but the computation of its size. -/
theorem Log.create_broken {storage after : Storage} {directory name : String} {layout : Layout}
    {bytes : Nat} {backing : Storage.Backing} {fault : Fault}
    (h : create storage directory name layout bytes backing = (after, .error (.broken fault))) :
    capacityFor bytes = .error fault := by
  simp only [create] at h
  split at h
  · cases h
    assumption
  · split at h
    · cases h
    · split at h
      · cases h
      · split at h <;> cases h

namespace Run

/-- The bytes for the records, in whole pages, are more than a word. -/
def Config.Oversized (config : Config) : Prop :=
  wordLimit - 4096 < 64 + (Layout.mk config.stages).span * config.count

instance (config : Config) : Decidable config.Oversized :=
  inferInstanceAs (Decidable (wordLimit - 4096 < _))

section Accepted

variable {config : Config} (h : config.Accepted)

include h

theorem Config.Accepted.oversized_iff :
    (∃ fault, (Layout.mk config.stages).bytesFor config.count = .error fault) ↔
      config.Oversized := by
  constructor
  · rintro ⟨fault, hfault⟩
    refine Nat.lt_of_not_le fun hsmall => ?_
    obtain ⟨bytes, hbytes, -⟩ := Log.bytesFor_fits h.layout config.count hsmall
    cases hfault.symm.trans hbytes
  · intro hlarge
    rcases (Log.bytesFor_overflow h.layout config.count).mpr hlarge with hfault | hfault <;>
      exact ⟨_, hfault⟩

/-- No two bodies are more than nine boundaries apart, so that many records have a size in words
whatever their layout. -/
theorem Config.Accepted.moderate (hfew : config.count ≤ 32025597350190186) :
    ¬ config.Oversized := by
  have hspan := (Layout.mk config.stages).span_bounds
  have hbytes : (Layout.mk config.stages).bytes = (config.stages + 2) * 8 := rfl
  have hmany := h.stages_le
  have hwide : (Layout.mk config.stages).span ≤ 576 := by
    simp only [maxStages] at hmany
    omega
  have hproduct : (Layout.mk config.stages).span * config.count ≤ 576 * 32025597350190186 :=
    Nat.mul_le_mul hwide hfew
  simp only [Config.Oversized, wordLimit]
  omega

end Accepted

namespace Context

theorem fill_broken_iff {config : Config} {layout : Layout} (hvalid : layout.Valid)
    (storage : Storage) (directory : String) (backing : Storage.Backing) :
    (∃ after fault, fill storage config layout directory backing =
      .error (after, .broken fault)) ↔ ∃ fault, layout.bytesFor config.count = .error fault := by
  unfold fill
  cases hbytes : layout.bytesFor config.count with
  | error fault => exact ⟨fun _ => ⟨fault, rfl⟩, fun _ => ⟨_, fault, rfl⟩⟩
  | ok bytes =>
      refine ⟨?_, nofun⟩
      rintro ⟨after, fault, h⟩
      rcases hcreate : Log.create storage directory logName layout bytes backing with
        ⟨left, problem | log⟩
      · simp only [hcreate] at h
        cases h
        cases (Log.create_broken hcreate).symm.trans (Log.bytesFor_kept hvalid hbytes).1
      · simp only [hcreate] at h
        cases h

def Housable (storage : Storage) (config : Config) : Prop :=
  ∃ made fresh, storage.makeDirectories config.outputDirectory = (made, .ok ()) ∧
    made.makeFresh config.outputDirectory directoryStem = .ok fresh

theorem create_broken_iff {config : Config} (h : config.Accepted) (storage : Storage)
    (backing : Storage.Backing) :
    (∃ after fault, create storage config backing = .error (after, .broken fault)) ↔
      config.Oversized ∧ Housable storage config := by
  rw [← h.oversized_iff]
  simp only [Housable, create, Config.validate_ok_iff.mpr h, h.ofStages]
  rcases storage.makeDirectories config.outputDirectory with ⟨made, refusal | ⟨⟩⟩
  · simp
  · rcases hfresh : made.makeFresh config.outputDirectory directoryStem with
      refusal | ⟨within, directory⟩
    · simp [hfresh]
    · simp only [hfresh, fill_broken_iff h.layout within directory backing]
      exact ⟨fun hfault => ⟨hfault, made, (within, directory), rfl, hfresh⟩, And.left⟩

/-- The log of a run that was made has the size for the run's records. -/
theorem create_sized {storage : Storage} {config : Config} {backing : Storage.Backing}
    {context : Context} (h : create storage config backing = .ok context) :
    ∃ made directory after bytes,
      (Layout.mk config.stages).bytesFor config.count = .ok bytes ∧
        Log.create made directory logName ⟨config.stages⟩ bytes = (after, .ok context.log) := by
  obtain rfl := create_backing h
  obtain ⟨-, -, within, directory, -, -, hfill⟩ := create_ok h
  obtain ⟨after, bytes, log, hbytes, hlog, rfl⟩ := fill_ok hfill
  exact ⟨within, directory, after, bytes, hbytes, hlog⟩

end Context

/-- What becomes of an accepted configuration when its run is made. Making the run breaks for the
size of the log and for nothing else. By `room` an appender commits as many records as the run has,
whatever was done with the log before. -/
structure Runs (config : Config) : Prop where
  overflow : (∃ fault, (Layout.mk config.stages).bytesFor config.count = .error fault) ↔
    config.Oversized
  moderate : config.count ≤ 32025597350190186 → ¬ config.Oversized
  broken : ∀ storage backing,
    (∃ after fault, Context.create storage config backing = .error (after, .broken fault)) ↔
      config.Oversized ∧ Context.Housable storage config
  unmade : config.Oversized → ∀ storage backing context,
    Context.create storage config backing ≠ .ok context
  room : ∀ {storage backing context}, Context.create storage config backing = .ok context →
    ∀ calls, ((Log.Sessions.begin context.log).run calls).usage.log.appenderTaken = false →
    ∀ acts : List Log.Act, acts.countP (·.Fits (Layout.mk config.stages).words) ≤ config.count →
      ((Log.Sessions.begin context.log).run (calls ++ .take :: acts.map .use)).counts.head? =
        some (acts.countP (·.Fits (Layout.mk config.stages).words))

/-- An accepted configuration can be run but for the size of its log. -/
theorem create_runs {config : Config} (h : config.validate = .ok ()) : Runs config := by
  have haccepted := Config.validate_ok_iff.mp h
  refine ⟨haccepted.oversized_iff, haccepted.moderate, Context.create_broken_iff haccepted, ?_, ?_⟩
  · intro hlarge storage backing context hcreate
    obtain ⟨-, -, -, bytes, hbytes, -⟩ := Context.create_sized hcreate
    obtain ⟨fault, hfault⟩ := haccepted.oversized_iff.mpr hlarge
    cases hfault.symm.trans hbytes
  · intro storage backing context hcreate calls hfree acts hfew
    obtain ⟨made, directory, after, bytes, hbytes, hlog⟩ := Context.create_sized hcreate
    have hroom := Log.bytesFor_room haccepted.layout hbytes
    have hcounts := (Log.Sessions.begin_underway haccepted.ofStages hlog hfree acts).counted
    rwa [Log.create_bytesFor haccepted.layout hbytes hlog,
      Nat.min_eq_left (Nat.le_trans hfew hroom)] at hcounts

/-- The widest records, just as many as a page holds. -/
theorem create_runs_widest :
    let config := Config.plain 62 7 "/out"
    let acts := List.replicate 7 (Log.Act.append [1, 2])
    config.validate = .ok () ∧ ¬ config.Oversized ∧ ∃ context,
      Context.create .empty config = .ok context ∧ context.log.capacity = 4096 ∧
        ((Log.Sessions.begin context.log).run (.take :: acts.map .use)).counts.head? = some 7 := by
  intro config acts
  have hvalid : config.validate = .ok () := by decide
  have hruns := create_runs hvalid
  have hshown : (Context.create .empty config).toOption.map (·.log.capacity) = some 4096 := by
    decide +kernel
  cases hcreate : Context.create .empty config with
  | error problem => simp [hcreate, Except.toOption] at hshown
  | ok context =>
      simp only [hcreate, Except.toOption, Option.map_some, Option.some.injEq] at hshown
      obtain ⟨-, -, hfree⟩ := Context.create_log hcreate
      have hcounts := hruns.room hcreate [] hfree acts (by decide)
      rw [show acts.countP (·.Fits (Layout.mk config.stages).words) = 7 by decide] at hcounts
      exact ⟨hvalid, hruns.moderate (by decide), context, rfl, hshown, hcounts⟩

/-- A run of `2 ^ 58` records of one stage is accepted and breaks when it is made. -/
theorem create_runs_oversized :
    let config := Config.plain 1 288230376151711744 "/out"
    config.validate = .ok () ∧
      (Layout.mk config.stages).bytesFor config.count = .error .multiplyOverflow ∧
      ∃ after, Context.create .empty config = .error (after, .broken .multiplyOverflow) := by
  exact ⟨by decide, by decide, _, rfl⟩

end Run

end GatedPipeline
