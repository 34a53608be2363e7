import GatedPipeline.Proofs.Gates
import GatedPipeline.Proofs.Log.Size
import GatedPipeline.Proofs.Run.Config
import GatedPipeline.Run.Context

/-!
The state a run starts from: an empty log with a word for every stage, no gate open, in a directory
of its own in which nothing else stands.
-/

namespace GatedPipeline

/-- Making a log in a directory in use, also where it fails halfway, touches nothing but its file.
-/
theorem Log.create_storage {storage after : Storage} {directory name : String}
    {place : Storage.Place} {layout : Layout} {bytes : Nat} {backing : Storage.Backing}
    {result : Except Problem Log} (hhoused : storage.Housed directory place)
    (hslash : '/' ∉ (name ++ ".log").toList)
    (hplain : Storage.Plain (name ++ ".log"))
    (h : create storage directory name layout bytes backing = (after, result)) :
    after.Housed directory place ∧ ∀ other, other ≠ place ++ [name ++ ".log"] →
      after.find other = storage.find other := by
  simp only [create] at h
  split at h
  · cases h
    exact ⟨hhoused, fun _ _ => rfl⟩
  · rename_i capacity hcapacity
    split at h
    · cases h
      exact ⟨hhoused, fun _ _ => rfl⟩
    · rename_i created hcreated
      obtain ⟨reached, hresolve, hmissing, rfl⟩ :=
        Storage.createNew_ok (Storage.Backing.grant_ok hcreated).2
      have hreached := hhoused.resolve_name hslash hplain hresolve
      subst hreached
      have hroot : place ++ [name ++ ".log"] ≠ [] := by simp
      have hnone : storage.find (place ++ [name ++ ".log"]) ≠ some .directory := by
        simp [hmissing]
      have hhoused' := hhoused.mono (Storage.directories_put _ hroot hnone (.log 0)) rfl
      have hsame : ∀ other, other ≠ place ++ [name ++ ".log"] →
          (storage.put (place ++ [name ++ ".log"]) (.log 0)).find other = storage.find other :=
        fun other hother => by rw [Storage.find_put _ hroot, if_neg hother]
      split at h
      · cases h
        exact ⟨hhoused', hsame⟩
      · rename_i sized hsized
        -- whether the file can be mapped or not, it keeps its size
        obtain rfl : sized = after := by
          split at h <;> cases h <;> rfl
        obtain ⟨-, reached, hresolve', -, rfl⟩ := Storage.resize_ok hsized
        have hreached := hhoused'.resolve_name hslash hplain hresolve'
        subst hreached
        have hfile : (storage.put (place ++ [name ++ ".log"]) (.log 0)).find
            (place ++ [name ++ ".log"]) ≠ some .directory := by
          rw [Storage.find_put storage hroot, if_pos rfl]
          simp
        refine ⟨hhoused'.mono (Storage.directories_put _ hroot hfile _) rfl,
          fun other hother => ?_⟩
        rw [Storage.find_put _ hroot, if_neg hother, hsame other hother]

namespace Run

/-- A number of records for which a size in bytes can be given is below the bound of words. -/
theorem count_small {layout : Layout} {records bytes : Nat} (hvalid : layout.Valid)
    (h : layout.bytesFor records = .ok bytes) : records < wordLimit := by
  have hsmall := Log.bytesFor_small hvalid h
  have hspan := layout.span_bounds
  have hmul := Nat.le_mul_of_pos_left records (show 0 < layout.span by omega)
  simp only [wordLimit] at *
  omega

/-- A log made with the size for so many records has room for them. -/
theorem count_le_room {storage after : Storage} {directory name : String} {layout : Layout}
    {records bytes : Nat} {log : Log} (hvalid : layout.Valid)
    (hbytes : layout.bytesFor records = .ok bytes)
    (hcreate : Log.create storage directory name layout bytes = (after, .ok log)) :
    records ≤ log.room := by
  obtain ⟨-, hlayout, -⟩ := Log.create_holds hvalid hcreate
  rw [Log.room, hlayout, Log.create_bytesFor hvalid hbytes hcreate]
  exact Log.bytesFor_room hvalid hbytes

section Accepted

variable {config : Config} (h : config.Accepted)

include h

theorem Config.Accepted.ofStages : Layout.ofStages config.stages = .ok ⟨config.stages⟩ := by
  have hstages := h.stages_pos
  have hmany := h.stages_le
  unfold Layout.ofStages
  rw [if_neg (by omega), if_neg (by omega)]

theorem Config.Accepted.layout : (Layout.mk config.stages).Valid :=
  (Layout.ofStages_ok h.ofStages).1

end Accepted

namespace Context

/-- What is made in the directory of a run. -/
theorem fill_ok {storage : Storage} {config : Config} {layout : Layout} {directory : String}
    {context : Context} (h : fill storage config layout directory = .ok context) :
    ∃ after bytes log, layout.bytesFor config.count = .ok bytes ∧
      Log.create storage directory logName layout bytes = (after, .ok log) ∧
      context = ⟨config, log, ⟨directory, []⟩, false, directory, after,
        #[.logCreated log.name log.path log.capacity,
          .runCreated directory config.stages config.count bytes]⟩ := by
  simp only [fill] at h
  split at h
  · cases h
  · rename_i bytes hbytes
    split at h
    · cases h
    · rename_i after log hcreate
      cases h
      exact ⟨after, bytes, log, hbytes, hcreate, rfl⟩

/-- What is done when a run can be made. -/
theorem create_ok {storage : Storage} {config : Config} {context : Context}
    (h : create storage config = .ok context) : config.Accepted ∧ ∃ made within directory,
      storage.makeDirectories config.outputDirectory = (made, .ok ()) ∧
      made.makeFresh config.outputDirectory directoryStem = .ok (within, directory) ∧
      fill within config ⟨config.stages⟩ directory = .ok context := by
  simp only [create] at h
  split at h
  · cases h
  · cases h
  · rename_i layout hvalid hlayout
    have haccepted := Config.validate_ok_iff.mp hvalid
    obtain rfl := Except.ok.inj (haccepted.ofStages.symm.trans hlayout)
    split at h
    · cases h
    · rename_i made hmade
      split at h
      · cases h
      · rename_i within directory hfresh
        exact ⟨haccepted, made, within, directory, hmade, hfresh, h⟩

/-- A run is only made on a system that refuses its log nothing. -/
theorem create_backing {storage : Storage} {config : Config} {backing : Storage.Backing}
    {context : Context} (h : create storage config backing = .ok context) :
    backing = .sound := by
  simp only [create] at h
  split at h
  · cases h
  · cases h
  · split at h
    · cases h
    · split at h
      · cases h
      · simp only [fill] at h
        split at h
        · cases h
        · split at h
          · cases h
          · rename_i hcreate
            exact (Log.create_ok hcreate).1

theorem create_accepted {storage : Storage} {config : Config} {context : Context}
    (h : create storage config = .ok context) : config.Accepted :=
  (create_ok h).1

/-- The log of a run that has been created is empty, and its appender is free. -/
theorem create_log {storage : Storage} {config : Config} {context : Context}
    (h : create storage config = .ok context) : context.log.Holds 0 (fun _ _ => 0) ∧
      context.log.layout = ⟨config.stages⟩ ∧ context.log.appenderTaken = false := by
  obtain ⟨haccepted, made, within, directory, -, -, hfill⟩ := create_ok h
  obtain ⟨after, bytes, log, -, hcreate, rfl⟩ := fill_ok hfill
  exact Log.create_holds haccepted.layout hcreate

/-- What a run starts from. Its directory is one of its own, below the one in which all files are.
-/
structure Fresh (config : Config) (context : Context) (place : Storage.Place) : Prop where
  counted : 0 < config.count
  small : config.count < wordLimit
  below : place ≠ []
  valid : (Layout.mk config.stages).Valid
  layout : context.log.layout = ⟨config.stages⟩
  log : context.log.Holds 0 fun _ _ => 0
  room : config.count ≤ context.log.room
  untaken : context.log.appenderTaken = false
  gates : context.gates = ⟨context.directory, []⟩
  sound : context.gates.Sound context.storage place
  aborted : context.aborted = false
  config : context.config = config

private theorem logFile_ne (stage : Nat) : Gate.fileOfStage stage ≠ logName ++ ".log" := by
  intro h
  have hlists := congrArg String.toList h
  simp [Gate.fileOfStage, Gate.ofStage, logName] at hlists

/-- Creating a run, on files that form a tree, gives such a state. -/
theorem create_fresh {storage : Storage} {config : Config} {context : Context}
    (htree : storage.IsTree) (h : create storage config = .ok context) :
    ∃ place, context.Fresh config place := by
  obtain ⟨haccepted, made, within, directory, hmade, hfresh, hfill⟩ := create_ok h
  obtain ⟨after, bytes, log, hbytes, hcreate, rfl⟩ := fill_ok hfill
  obtain ⟨place, hnone, rfl, hhoused⟩ := Storage.makeFresh_ok (by decide) hfresh
  have hplace := Storage.place_ne_root hnone
  have hvalid := haccepted.layout
  obtain ⟨hholds, hlayout, huntaken⟩ := Log.create_holds hvalid hcreate
  obtain ⟨hhoused', hsame⟩ := Log.create_storage hhoused (by decide)
    ⟨by decide, by decide, by decide⟩ hcreate
  have htree' := htree.makeDirectories config.outputDirectory
  rw [hmade] at htree'
  have hsound : Registry.Sound ⟨directory, []⟩ after place := by
    refine ⟨hhoused', by simp, by simp, by simp, by simp, fun stage _ => ?_⟩
    rw [hsame _ (by simpa using logFile_ne stage), Storage.find_put made hplace,
      if_neg (by simp)]
    exact Storage.IsTree.below htree' hnone [Gate.fileOfStage stage]
  exact ⟨place, haccepted.count_pos, count_small hvalid hbytes, hplace, hvalid, hlayout, hholds,
    count_le_room hvalid hbytes hcreate, huntaken, rfl, hsound, rfl, rfl⟩

end Context

end Run

end GatedPipeline
