import GatedPipeline.Proofs.Log.Creation
import GatedPipeline.Proofs.Run.Fresh
import GatedPipeline.Proofs.Storage.Paving

/-!
Runs that cannot be made. A configuration that is not valid is refused before any file is touched.
After that a run is made in steps, each of which can fail: the output directory, the run's own
directory in it, and the log in that, whose size may overflow, and whose file may not be made, not
be sized and not be mapped. From the moment the run's directory is there, each failure removes it
with all that is in it. So nothing that was there before is changed, and the output directory, or
those on the way to it, are all that can be new.
-/

namespace GatedPipeline.Run

namespace Context

variable {storage after : Storage} {config : Config} {backing : Storage.Backing}
  {problem : Problem}

/-! ### The ways to fail -/

/-- How making a run fails, and with which files. A configuration can be invalid, the output
directory or the directory of the run can fail to be made, and so can the log with what belongs to
it. -/
inductive Refused (storage : Storage) (config : Config) (backing : Storage.Backing) :
    Storage → Problem → Prop
  | invalid (failure : Failure) (rejected : config.validate = .error failure) :
      Refused storage config backing storage (.failed failure)
  | unpaved (made : Storage) (refusal : Storage.Refusal) (accepted : config.Accepted)
      (paving : storage.makeDirectories config.outputDirectory = (made, .error refusal)) :
      Refused storage config backing made (.failed
        ⟨[.creatingOutputDirectory config.outputDirectory], .storage refusal⟩)
  | unhoused (made : Storage) (refusal : Storage.Refusal) (accepted : config.Accepted)
      (paving : storage.makeDirectories config.outputDirectory = (made, .ok ()))
      (housing : made.makeFresh config.outputDirectory directoryStem = .error refusal) :
      Refused storage config backing made (.failed
        ⟨[.creatingRunDirectory config.outputDirectory], .storage refusal⟩)
  | unfilled (made fresh after : Storage) (directory : String) (problem : Problem)
      (accepted : config.Accepted)
      (paving : storage.makeDirectories config.outputDirectory = (made, .ok ()))
      (housing : made.makeFresh config.outputDirectory directoryStem = .ok (fresh, directory))
      (filling : fill fresh config ⟨config.stages⟩ directory backing =
        .error (after, problem)) :
      Refused storage config backing after problem

/-- A run cannot be made in these ways only. -/
theorem create_error (h : create storage config backing = .error (after, problem)) :
    Refused storage config backing after problem := by
  simp only [create] at h
  split at h
  · rename_i hinvalid
    cases h
    exact .invalid _ hinvalid
  · rename_i failure hunfit hvalid
    -- a valid configuration has a layout, so this is no way to fail
    cases hvalidate : config.validate with
    | error first => exact (hvalid first hvalidate).elim
    | ok _ =>
        rw [(Config.validate_ok_iff.mp hvalidate).ofStages] at hunfit
        cases hunfit
  · rename_i layout hvalid hlayout
    have haccepted := Config.validate_ok_iff.mp hvalid
    obtain rfl := Except.ok.inj (haccepted.ofStages.symm.trans hlayout)
    split at h
    · rename_i made refusal hpaving
      cases h
      exact .unpaved _ refusal haccepted hpaving
    · rename_i made hpaving
      split at h
      · rename_i refusal hhousing
        cases h
        exact .unhoused _ refusal haccepted hpaving hhousing
      · rename_i fresh directory hhousing
        exact .unfilled made fresh after directory problem haccepted hpaving hhousing h

/-! ### What they leave -/

section Fill

variable {made fresh : Storage} {directory parent : String} (htree : made.IsTree)
  (hhousing : made.makeFresh parent directoryStem = .ok (fresh, directory))

include htree hhousing

/-- A run's directory is removed again, whatever was done about the log in it. -/
theorem fill_left {layout : Layout}
    (h : fill fresh config layout directory backing = .error (after, problem)) :
    after = made := by
  obtain ⟨place, hnone, rfl, hhoused⟩ := Storage.makeFresh_ok (by decide) hhousing
  have hempty : (made.put place .directory).remove place = made := by
    rw [Storage.remove_put made List.prefix_rfl, htree.remove_absent hnone]
  simp only [fill] at h
  split at h
  · cases h
    rw [hhoused.removeDirectory_ok]
    exact hempty
  · split at h
    · rename_i left failure hcreate
      cases h
      rcases (Log.create_error hcreate).left with rfl | ⟨file, size, hleads, hfree, rfl⟩
      · rw [hhoused.removeDirectory_ok]
        exact hempty
      · have hfile := hhoused.resolve_name (by decide) ⟨by decide, by decide, by decide⟩ hleads
        subst hfile
        have hhoused' := hhoused.mono (fun _ => (Storage.extends_put hfree (.log size)).kept) rfl
        rw [hhoused'.removeDirectory_ok]
        exact (Storage.remove_put _ (List.prefix_append place _) (.log size)).trans hempty
    · cases h

omit htree in
/-- As long as the run's directory is not there, its path leads to nothing. -/
theorem directory_absent (hless : after.Extends made) : after.isThere directory = false := by
  obtain ⟨place, hnone, rfl, hhoused⟩ := Storage.makeFresh_ok (by decide) hhousing
  simp only [Storage.isThere]
  split
  · rfl
  · rename_i reached hreached
    have hsame := (hless.trans (Storage.extends_put hnone .directory)).resolve hreached
    obtain rfl := Except.ok.inj (hhoused.resolves.symm.trans hsame)
    cases hfound : after.find place with
    | none => rfl
    | some node =>
        rw [hless.kept hfound] at hnone
        cases hnone

end Fill

/-- What a run that cannot be made leaves. A configuration that is not valid touches no file. In all
other cases everything that was there is as it was, everything new is a directory on the way to the
output directory, and the directory that was made for the run is gone. -/
structure Unmade (storage : Storage) (config : Config) (after : Storage) : Prop where
  rejected : ∀ failure, config.validate = .error failure → after = storage
  kept : storage.Extends after
  new : ∀ place, storage.find place = none → after.find place ≠ none →
    after.find place = some .directory ∧
      ∃ part, part <+: Storage.pathNames config.outputDirectory ∧
        after.resolve (Storage.pathOf config.outputDirectory part) = .ok place
  gone : ∀ made fresh directory,
    storage.makeDirectories config.outputDirectory = (made, .ok ()) →
      made.makeFresh config.outputDirectory directoryStem = .ok (fresh, directory) →
        after.isThere directory = false

/-- At each exit the files are those before the call, or those with the output directory made. -/
theorem Refused.left (htree : storage.IsTree) (h : Refused storage config backing after problem) :
    after = storage ∨
      config.Accepted ∧ after = (storage.makeDirectories config.outputDirectory).1 := by
  cases h with
  | invalid => exact .inl rfl
  | unpaved _ _ haccepted hpaving => exact .inr ⟨haccepted, by rw [hpaving]⟩
  | unhoused _ _ haccepted hpaving _ => exact .inr ⟨haccepted, by rw [hpaving]⟩
  | unfilled made _ _ _ _ haccepted hpaving hhousing hfilling =>
      have htree' := htree.makeDirectories config.outputDirectory
      rw [hpaving] at htree' ⊢
      exact .inr ⟨haccepted, fill_left htree' hhousing hfilling⟩

/-- At most the output directory and those above it are made. -/
theorem create_refused (htree : storage.IsTree)
    (h : create storage config backing = .error (after, problem)) :
    after = storage ∨ ∀ place,
      after.find place = (storage.makeDirectories config.outputDirectory).1.find place := by
  rcases (create_error h).left htree with hsame | ⟨-, hpaved⟩
  · exact .inl hsame
  · exact .inr fun place => by rw [hpaved]

/-- A run that cannot be made leaves nothing behind, whatever the system refuses its log. -/
theorem create_unmade (htree : storage.IsTree)
    (h : create storage config backing = .error (after, problem)) :
    Unmade storage config after := by
  have hpaved := storage.makeDirectories_paved config.outputDirectory
  rcases (create_error h).left htree with rfl | ⟨haccepted, rfl⟩
  · refine ⟨fun _ _ => rfl, .refl after, fun place hnone hthere => absurd hnone hthere, ?_⟩
    intro made fresh directory hpaving hhousing
    rw [hpaving] at hpaved
    exact directory_absent hhousing hpaved.grows
  · refine ⟨fun failure hinvalid => ?_, hpaved.grows, fun place => hpaved.new, ?_⟩
    · rw [Config.validate_ok_iff.mpr haccepted] at hinvalid
      cases hinvalid
    · intro made fresh directory hpaving hhousing
      rw [hpaving]
      exact directory_absent hhousing (.refl made)

/-- Files with an output directory that is there, and a file in it. -/
def noted : Storage :=
  (Storage.empty.put ["out"] .directory).put ["out", "notes"] (.file ⟨#[104, 105]⟩)

/-- For `2 ^ 58` records the size of the log overflows, after the run's directory has been made and
an output directory for it. -/
theorem create_unmade_overflow : noted.IsTree ∧ ∃ after,
    create noted (.plain 1 288230376151711744 "/out/runs") =
        .error (after, .broken .multiplyOverflow) ∧
      after.find ["out", "notes"] = some (.file ⟨#[104, 105]⟩) ∧
      after.isThere "/out/runs" = true ∧ after.isThere "/out/runs/relay-run-0" = false := by
  have htree : noted.IsTree :=
    (Storage.empty_isTree.put (by decide) rfl fun _ => rfl).put (by decide) rfl nofun
  have hcreate : create noted (.plain 1 288230376151711744 "/out/runs") =
      .error ((noted.makeDirectories "/out/runs").1, .broken .multiplyOverflow) := rfl
  have hunmade := create_unmade htree hcreate
  exact ⟨htree, _, hcreate, hunmade.kept.kept rfl, rfl, hunmade.gone _ _ _ rfl rfl⟩

end Context

end GatedPipeline.Run
