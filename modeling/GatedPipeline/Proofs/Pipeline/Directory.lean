import GatedPipeline.Proofs.Pipeline.RootCause
import GatedPipeline.Proofs.Run.Unmade

/-!
The directory of a run. Until the supervisor returns it stands. A run that succeeds removes it, also
out from under a pretoucher that was not waited for. A run that fails gives its hold on the shared
state up, and then the directory lasts as long as the pretoucher holds on to it.
-/

namespace GatedPipeline.Pipeline

open Worker

/-- One turn of the pretoucher: it leaves the files alone, or gives the run up. If it was the last
to hold it, the directory goes. -/
theorem pretouch_storage (pipeline : Pipeline) :
    pipeline.pretouch.crew.context.storage = pipeline.crew.context.storage ∧
        pipeline.pretouch.pretoucher.holdsRun = pipeline.pretoucher.holdsRun ∨
      pipeline.pretoucher.holdsRun = true ∧ pipeline.pretouch.pretoucher.holdsRun = false ∧
        pipeline.pretouch.crew.context.storage =
          if pipeline.hasReturned then pipeline.crew.context.drop
          else pipeline.crew.context.storage := by
  obtain ⟨log, pretoucher, ⟨hturn, hholds⟩ | ⟨hturn, hheld, hgives⟩⟩ := pipeline.pretouch_cases
  · rw [hturn]
    exact .inl ⟨rfl, hholds⟩
  · rw [hturn]
    refine .inr ⟨hheld, hgives, ?_⟩
    dsimp only
    split <;> rfl

theorem supervise_directory (pipeline : Pipeline) (patient : Bool) :
    (pipeline.supervise patient).crew.context.directory = pipeline.crew.context.directory := by
  rcases pipeline.supervise_crew patient with hcrew | hcrew | ⟨notes, -, hcrew⟩
  · rw [hcrew]
  · rw [hcrew]
    rfl
  · rw [hcrew]
    exact congrArg Prod.snd (conclude_frame _ _ notes)

/-- A run keeps its directory. -/
theorem directory_turn (pipeline : Pipeline) (turn : Turn) :
    (pipeline.turn turn).crew.context.directory = pipeline.crew.context.directory := by
  cases turn with
  | worker index now => exact congrArg Prod.snd (pipeline.work_frame index now)
  | pretoucher => exact congrArg Prod.snd (pretouch_frame pipeline)
  | supervisor patient => exact pipeline.supervise_directory patient

/-! ### The end of a run -/

theorem collect_place {context after : Run.Context} {result : Except Fault Latency.Report}
    (hcollect : Latency.collect context = (after, result)) :
    after.storage = context.storage ∧ after.directory = context.directory := by
  simp only [Latency.collect] at hcollect
  split at hcollect
  · cases hcollect
    exact ⟨rfl, rfl⟩
  · cases hcollect
    split <;> exact ⟨rfl, rfl⟩

/-- What becomes of the directory of a run whose supervisor has returned. Only one that failed is
left to a pretoucher that still holds it. -/
def Leaves (place : Storage.Place) (outcome : Except Problem Run.Report) (shared : Bool)
    (context : Run.Context) : Prop :=
  match outcome, shared with
  | .error _, true => context.storage.Housed context.directory place
  | .error _, false | .ok _, _ => context.storage.isDirectory context.directory = false

section Ending

variable {context : Run.Context} {place : Storage.Place} (hplace : place ≠ [])
  (h : context.storage.Housed context.directory place)

include hplace h

theorem drop_gone : context.drop.isDirectory context.directory = false := by
  simp only [Run.Context.drop, Run.Context.close, h.removeDirectory_ok]
  exact h.removed hplace

theorem release_leaves (problem : Problem) (shared : Bool) :
    Leaves place (.error problem) shared (release context shared) := by
  cases shared with
  | true => exact h
  | false => exact drop_gone hplace h

/-- A run that ends in an error gives the directory up, one that ends well removes it. -/
theorem conclude_leaves {after : Run.Context} {shared : Bool} {notes : Notes}
    {outcome : Except Problem Run.Report}
    (hconclude : conclude context shared notes = (after, outcome)) :
    Leaves place outcome shared after := by
  simp only [conclude] at hconclude
  split at hconclude
  · cases hconclude
    exact release_leaves hplace h _ shared
  · cases hconclude
    exact release_leaves hplace h _ shared
  · split at hconclude
    · rename_i collected fault hcollect
      cases hconclude
      obtain ⟨hstorage, hdirectory⟩ := collect_place hcollect
      rw [← hstorage, ← hdirectory] at h
      exact release_leaves hplace h _ shared
    · rename_i collected latency hcollect
      obtain ⟨hstorage, hdirectory⟩ := collect_place hcollect
      rw [← hstorage, ← hdirectory] at h
      split at hconclude
      · cases hconclude
        exact release_leaves hplace h _ shared
      · rw [removeDirectory_ok shared h] at hconclude
        cases hconclude
        exact h.removed hplace

end Ending

/-- A pretoucher that gives up a run whose supervisor has returned takes the directory with it. -/
theorem Leaves.drop {context : Run.Context} {place : Storage.Place} (hplace : place ≠ [])
    {outcome : Except Problem Run.Report} (h : Leaves place outcome true context) :
    context.drop.isDirectory context.directory = false := by
  cases outcome with
  | error problem => exact drop_gone hplace h
  | ok report =>
      -- there is nothing left to remove
      obtain ⟨refusal, hrefused⟩ := Storage.removeDirectory_refused h
      simp only [Run.Context.drop, Run.Context.close, hrefused]
      exact h

theorem leaves_gone {context : Run.Context} {place : Storage.Place}
    (outcome : Except Problem Run.Report)
    (h : context.storage.isDirectory context.directory = false) :
    Leaves place outcome false context := by
  cases outcome <;> exact h

theorem Leaves.move {context after : Run.Context} {place : Storage.Place}
    {outcome : Except Problem Run.Report} {shared : Bool} (h : Leaves place outcome shared context)
    (hstorage : after.storage = context.storage)
    (hdirectory : after.directory = context.directory) :
    Leaves place outcome shared after := by
  simp only [Leaves] at h ⊢
  rw [hstorage, hdirectory]
  exact h

/-- The directory stands if the run failed and the pretoucher still holds it, and only then. -/
theorem Leaves.isDirectory_iff {context : Run.Context} {place : Storage.Place}
    {outcome : Except Problem Run.Report} {shared : Bool}
    (h : Leaves place outcome shared context) :
    context.storage.isDirectory context.directory = true ↔
      (∃ problem, outcome = .error problem) ∧ shared = true := by
  cases outcome with
  | ok report =>
      have hgone : context.storage.isDirectory context.directory = false := h
      simp [hgone]
  | error problem =>
      cases shared with
      | true => simp [Storage.Housed.isDirectory h]
      | false =>
          have hgone : context.storage.isDirectory context.directory = false := h
          simp [hgone]

/-! ### What every turn keeps -/

/-- How the directory of a run stands while the supervisor works, and after. -/
def Lodged (config : Run.Config) (place : Storage.Place) (pipeline : Pipeline) : Prop :=
  match pipeline.outcome with
  | none => ∃ tally, pipeline.crew.InStep config place tally
  | some outcome =>
      Leaves place outcome pipeline.pretoucher.holdsRun pipeline.crew.context

section Lodged

variable {pipeline : Pipeline} {config : Run.Config} {place : Storage.Place}
  {posted heard : List Exit} (hplace : place ≠ [])
  (hreporting : pipeline.Reporting config.stages posted heard)

include hplace

/-- The turn with which the supervisor returns. -/
private theorem lodged_returns {tally : Tally} (hstep : pipeline.crew.InStep config place tally)
    (hworking : pipeline.outcome = none) {turn : Turn} {outcome : Except Problem Run.Report}
    (houtcome : (pipeline.turn turn).outcome = some outcome) :
    Leaves place outcome (pipeline.turn turn).pretoucher.holdsRun
      (pipeline.turn turn).crew.context := by
  rcases pipeline.supervisor_turn turn with ⟨patient, rfl⟩ | hsame
  · obtain ⟨⟨context, workers⟩, sent, mailbox, pretoucher, supervisor⟩ := pipeline
    cases supervisor with
    | conclude notes =>
        have hhoused := hstep.shows.sound.housed
        rw [hstep.shows.directory] at hhoused
        obtain rfl := Option.some.inj houtcome
        exact conclude_leaves hplace hhoused rfl
    | returned result => cases hworking
    | receive notes =>
        exfalso
        simp only [Pipeline.turn, supervise] at houtcome
        split at houtcome
        · split at houtcome <;> cases houtcome
        · cases mailbox with
          | nil => cases houtcome
          | cons exit rest =>
              dsimp only at houtcome
              split at houtcome <;> cases houtcome
    | awaitPretoucher notes | windDown notes =>
        exfalso
        simp only [Pipeline.turn, supervise, Pipeline.outcome] at houtcome
        cases hawaited : pretoucher.awaited patient <;> simp [hawaited] at houtcome
  · rw [Pipeline.outcome, hsame] at houtcome
    exact absurd (hworking.symm.trans houtcome) (by simp)

include hreporting

/-- A turn after the supervisor has returned. -/
private theorem lodged_after {outcome : Except Problem Run.Report}
    (houtcome : pipeline.outcome = some outcome)
    (h : Leaves place outcome pipeline.pretoucher.holdsRun pipeline.crew.context) (turn : Turn) :
    Leaves place outcome (pipeline.turn turn).pretoucher.holdsRun
      (pipeline.turn turn).crew.context := by
  cases turn with
  | worker index now =>
      -- all workers are over
      change Leaves place outcome (pipeline.work index now).pretoucher.holdsRun
        (pipeline.work index now).crew.context
      have hover := (hreporting.returned houtcome).1
      cases hworker : pipeline.crew.workers[index]? with
      | none => rwa [work_none now hworker]
      | some worker =>
          have hsome := List.all_eq_true.mp hover _ (List.mem_of_getElem? hworker)
          obtain ⟨result, hresult⟩ := Option.isSome_iff_exists.mp hsome
          rw [work_over now hworker hresult]
          split <;> exact h
  | pretoucher =>
      have hdirectory : pipeline.pretouch.crew.context.directory = _ :=
        pipeline.directory_turn .pretoucher
      rcases pipeline.pretouch_storage with ⟨hstorage, hholds⟩ | ⟨hheld, hholds, hstorage⟩
      · exact (hholds.symm ▸ h).move hstorage hdirectory
      · rw [← isSome_outcome, houtcome, Option.isSome_some, if_pos rfl] at hstorage
        have hgone := Leaves.drop hplace (hheld ▸ h)
        change Leaves place outcome pipeline.pretouch.pretoucher.holdsRun
          pipeline.pretouch.crew.context
        rw [hholds]
        apply leaves_gone
        rw [hstorage, hdirectory]
        exact hgone
  | supervisor patient =>
      obtain ⟨⟨context, workers⟩, sent, mailbox, pretoucher, supervisor⟩ := pipeline
      cases supervisor with
      | returned result => exact h
      | _ => cases houtcome

theorem Lodged.turn (h : pipeline.Lodged config place) (turn : Turn) :
    (pipeline.turn turn).Lodged config place := by
  cases houtcome : pipeline.outcome with
  | some outcome =>
      simp only [Lodged, houtcome, outcome_turn houtcome turn] at h ⊢
      exact lodged_after hplace hreporting houtcome h turn
  | none =>
      simp only [Lodged, houtcome] at h
      obtain ⟨tally, hstep⟩ := h
      simp only [Lodged]
      cases hafter : (pipeline.turn turn).outcome with
      | none =>
          have hworking := isSome_outcome (pipeline.turn turn)
          rw [hafter] at hworking
          exact inStep_turn hstep turn hworking.symm
      | some outcome => exact lodged_returns hplace hstep houtcome hafter

theorem Lodged.run (h : pipeline.Lodged config place) (schedule : List Turn) :
    (pipeline.run schedule).Lodged config place := by
  induction schedule generalizing pipeline posted heard with
  | nil => exact h
  | cons turn rest ih => exact ih (hreporting.turn turn) (h.turn hplace hreporting turn)

end Lodged

theorem directory_run (pipeline : Pipeline) (schedule : List Turn) :
    (pipeline.run schedule).crew.context.directory = pipeline.crew.context.directory := by
  induction schedule generalizing pipeline with
  | nil => rfl
  | cons turn rest ih => exact (ih (pipeline.turn turn)).trans (pipeline.directory_turn turn)

/-- Whatever a run comes to, its directory is gone when the supervisor has returned, unless the run
failed and the pretoucher still holds it: then it stands until the pretoucher gives the run up. A
run that cannot be created leaves none. -/
theorem directory_removed {storage : Storage} {config : Run.Config} (htree : storage.IsTree) :
    (∀ after problem, Run.Context.create storage config = .error (after, problem) →
      after = storage ∨ ∀ place,
        after.find place = (storage.makeDirectories config.outputDirectory).1.find place) ∧
      ∀ context, Run.Context.create storage config = .ok context → ∀ pause schedule outcome,
        let run := (start context pause).run schedule
        run.outcome = some outcome →
          (run.crew.context.storage.isDirectory context.directory = true ↔
            (∃ problem, outcome = .error problem) ∧ run.pretoucher.holdsRun = true) := by
  refine ⟨fun after problem => Run.Context.create_refused htree, ?_⟩
  intro context hcreate pause schedule outcome run houtcome
  obtain ⟨place, hfresh⟩ := Run.Context.create_fresh htree hcreate
  have hstart : (start context pause).Lodged config place :=
    ⟨_, Crew.start_inStep hfresh pause⟩
  have hlodged := hstart.run hfresh.below (start_reporting hfresh pause) schedule
  have hdirectory : run.crew.context.directory = context.directory :=
    (directory_run _ schedule).trans (congrArg Prod.snd (start_frame context pause))
  simp only [Lodged, show ((start context pause).run schedule).outcome = some outcome from
    houtcome] at hlodged
  rw [← hdirectory]
  exact hlodged.isDirectory_iff

/-- Two records and two stages, the first of which breaks. Nobody waits for the pretoucher; the
directory goes when it stops. -/
theorem directory_removed_two_stages : ∃ context,
    Run.Context.create .empty (.plain 2 2 "/out") = .ok context ∧
      let run := (start context brittle).run ((List.range 60).map cycle ++ [.pretoucher])
      ∃ outcome, run.outcome = some outcome ∧
        (run.crew.context.storage.isDirectory context.directory = true ↔
          (∃ problem, outcome = .error problem) ∧ run.pretoucher.holdsRun = true) ∧
        run.crew.context.storage.isDirectory context.directory = false := by
  have hshown : (Run.Context.create .empty (.plain 2 2 "/out")).toOption.map (fun context =>
      let run := (start context brittle).run ((List.range 60).map cycle ++ [.pretoucher])
      (run.outcome.isSome, run.pretoucher.holdsRun)) = some (true, false) := by
    decide +kernel
  cases hcreate : Run.Context.create .empty (.plain 2 2 "/out") with
  | error problem => simp [hcreate, Except.toOption] at hshown
  | ok context =>
      simp only [hcreate, Except.toOption, Option.map_some, Option.some.injEq,
        Prod.mk.injEq] at hshown
      obtain ⟨hsome, hholds⟩ := hshown
      obtain ⟨outcome, houtcome⟩ := Option.isSome_iff_exists.mp hsome
      have hiff := (directory_removed Storage.empty_isTree).2 context hcreate brittle _ outcome
        houtcome
      refine ⟨context, rfl, outcome, houtcome, hiff, Bool.eq_false_iff.mpr fun hstands => ?_⟩
      rw [(hiff.mp hstands).2] at hholds
      cases hholds

/-- A run that failed can leave its directory: the supervisor has returned the error of the stage
that broke, and the pretoucher, for which nobody waited, still holds the run. -/
theorem directory_outlives_failed_run : ∃ context,
    Run.Context.create .empty (.plain 2 2 "/out") = .ok context ∧
      let run := (start context brittle).run ((List.range 60).map cycle)
      (∃ problem, run.outcome = some (.error problem)) ∧
        run.crew.context.storage.isDirectory context.directory = true := by
  have hshown : (Run.Context.create .empty (.plain 2 2 "/out")).toOption.map (fun context =>
      let run := (start context brittle).run ((List.range 60).map cycle)
      (run.outcome.any fun outcome => outcome.toOption.isNone,
        run.crew.context.storage.isDirectory context.directory)) = some (true, true) := by
    decide +kernel
  cases hcreate : Run.Context.create .empty (.plain 2 2 "/out") with
  | error problem => simp [hcreate, Except.toOption] at hshown
  | ok context =>
      simp only [hcreate, Except.toOption, Option.map_some, Option.some.injEq,
        Prod.mk.injEq] at hshown
      obtain ⟨hfailed, hstands⟩ := hshown
      refine ⟨context, rfl, ?_, hstands⟩
      obtain ⟨outcome, houtcome, hnone⟩ := (Option.any_eq_true _ _).mp hfailed
      cases outcome with
      | ok report => cases hnone
      | error problem => exact ⟨problem, houtcome⟩

end GatedPipeline.Pipeline
