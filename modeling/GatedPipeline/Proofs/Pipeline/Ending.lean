import GatedPipeline.Proofs.Pipeline.Reports
import GatedPipeline.Proofs.Worker.Finished

/-!
The end of a run whose workers have all returned without failing and have all reported. The reports
came in some order, and the end does not depend on it: the stages are sorted, the collector finds
the records that the producer says it wrote, and the run's directory can be removed.
-/

namespace GatedPipeline

/-- What a run without failures reports. All records were written, every stage processed them all up
to the last one, and the gates stand at the last record. The latency is that of all records, one
sample for each, none incomplete and none an anomaly. -/
structure Run.Report.Complete (report : Run.Report) (config : Run.Config) : Prop where
  stages : report.stages = config.stages
  written : report.producer.written = config.count
  stageStats : report.stageStats =
    (List.range config.stages).map fun number => ⟨number + 1, config.count, config.count - 1⟩
  gates : report.gates.Perm ((List.range config.stages).map fun number =>
    (Gate.ofStage (number + 1), (config.count : Int) - 1))
  records : report.latency.records = config.count
  lastRemaining : report.latency.lastRemaining = some 0
  incomplete : report.latency.incomplete = 0
  anomalies : report.latency.anomalies = 0
  samples : report.latency.histogram.total = config.count

/-- Dropping a run leaves the counters as they are, whether the directory goes away or not. -/
theorem Run.Context.drop_cells (context : Run.Context) :
    context.drop.cells = context.storage.cells := by
  simp only [Run.Context.drop, Run.Context.close]
  split
  · rename_i storage hremove
    exact (Storage.removeDirectory_cells hremove).1
  · rfl

namespace Pipeline

open Worker

private theorem filterMap_lookup {α β : Type} (list : List α) (work : α → Option β) :
    ((List.range list.length).filterMap fun index => list[index]?.bind work) =
      list.filterMap work := by
  induction list with
  | nil => rfl
  | cons first rest ih =>
      rw [List.length_cons, List.range_succ_eq_map, List.filterMap_cons, List.filterMap_map,
        List.filterMap_cons]
      have hrest : ((List.range rest.length).filterMap
          ((fun index => (first :: rest)[index]?.bind work) ∘ Nat.succ)) =
            rest.filterMap work := by
        rw [← ih]
        rfl
      rw [hrest]
      rfl

section Settled

variable {pipeline : Pipeline} {config : Run.Config} {tally : Tally}
  (h : pipeline.crew.Settled config tally)
  (hall : ∀ index < pipeline.crew.workers.length, (pipeline.report index).isSome)

include hall

/-- When all workers have reported, the reports are those of all workers. -/
theorem exits_all : pipeline.exits = pipeline.crew.workers.filterMap fun worker =>
    worker.outcome.map (Exit.mk worker.role) := by
  rw [exits, ← filterMap_lookup pipeline.crew.workers]
  apply List.filterMap_congr
  intro index hindex
  have hsome := hall index (List.mem_range.mp hindex)
  rw [report] at hsome ⊢
  split
  · rfl
  · rename_i hunsent
    rw [if_neg hunsent] at hsome
    cases hsome

include h

/-- Among them is one of the producer, and one of each stage. -/
theorem exits_settled : pipeline.exits.filterMap Exit.staged =
      (List.range config.stages).reverse.map (fun number =>
        ⟨number + 1, config.count, config.count - 1⟩) ∧
    ∃ elapsed, pipeline.exits.filterMap Exit.produced = [⟨config.count, elapsed⟩] := by
  have hroles := h.roles
  rw [Crew.roles, List.map_eq_append_iff] at hroles
  obtain ⟨front, back, hworkers, hfront, hback⟩ := hroles
  obtain ⟨last, rfl, hlast⟩ := List.map_eq_singleton_iff.mp hback
  obtain ⟨elapsed, hproduced⟩ := h.producer last (by simp [hworkers]) hlast
  have hstaged : ∀ worker ∈ front, ∃ number, worker.role = .stage (number + 1) ∧
      worker.outcome = some (.ok (.staged ⟨number + 1, config.count, config.count - 1⟩)) := by
    intro worker hworker
    have hrole : worker.role ∈ front.map Worker.role := List.mem_map_of_mem hworker
    rw [hfront, List.mem_map] at hrole
    obtain ⟨number, -, hrole⟩ := hrole
    exact ⟨number, hrole.symm, h.stages worker (by simp [hworkers, hworker]) _ hrole.symm⟩
  rw [exits_all hall, List.filterMap_filterMap, List.filterMap_filterMap, hworkers,
    List.filterMap_append, List.filterMap_append]
  refine ⟨?_, elapsed, ?_⟩
  · have hmap : front.filterMap (fun worker =>
        (worker.outcome.map (Exit.mk worker.role)).bind Exit.staged) =
          (front.map Worker.role).map fun role =>
            ⟨role.slot, config.count, config.count - 1⟩ := by
      rw [List.map_map, ← List.filterMap_eq_map]
      apply List.filterMap_congr
      intro worker hworker
      obtain ⟨number, hrole, houtcome⟩ := hstaged worker hworker
      simp [hrole, houtcome, Exit.staged, Role.slot]
    rw [hmap, hfront, List.map_map]
    simp [hproduced, Exit.staged, Role.slot]
  · have hnone : front.filterMap (fun worker =>
        (worker.outcome.map (Exit.mk worker.role)).bind Exit.produced) = [] := by
      rw [List.filterMap_eq_nil_iff]
      intro worker hworker
      obtain ⟨number, -, houtcome⟩ := hstaged worker hworker
      simp [houtcome, Exit.produced]
    rw [hnone]
    simp [hproduced, Exit.produced]

end Settled

/-- Sorting by stages, whatever the order in which they reported. -/
theorem sort_stages {reported : List Stage.Stats} {stages : Nat} {stats : Nat → Stage.Stats}
    (hstats : ∀ number, (stats number).stage = number + 1)
    (h : reported.Perm ((List.range stages).reverse.map stats)) :
    (reported.mergeSort fun one other => one.stage ≤ other.stage) =
      (List.range stages).map stats := by
  have hperm := (List.mergeSort_perm reported fun one other => one.stage ≤ other.stage).trans
    (h.trans ((List.reverse_perm _).map stats))
  have hsorted : (reported.mergeSort fun one other => one.stage ≤ other.stage).Pairwise
      fun one other => one.stage ≤ other.stage := by
    have htransitive : ∀ one other third : Stage.Stats, decide (one.stage ≤ other.stage) = true →
        decide (other.stage ≤ third.stage) = true → decide (one.stage ≤ third.stage) = true := by
      intro one other third hle hle'
      rw [decide_eq_true_eq] at hle hle' ⊢
      exact Nat.le_trans hle hle'
    have htotal : ∀ one other : Stage.Stats,
        (decide (one.stage ≤ other.stage) || decide (other.stage ≤ one.stage)) = true := by
      intro one other
      simpa using Nat.le_total one.stage other.stage
    have hpairs := List.pairwise_mergeSort htransitive htotal reported
    simpa only [decide_eq_true_eq] using hpairs
  have hascending : ((List.range stages).map stats).Pairwise
      fun one other => one.stage ≤ other.stage := by
    rw [List.pairwise_map]
    apply List.pairwise_le_range.imp
    intro one other hle
    rw [hstats, hstats]
    omega
  refine List.Perm.eq_of_pairwise (fun one other hone hother hle hge => ?_) hsorted hascending hperm
  have hone' := hperm.subset hone
  rw [List.mem_map] at hone' hother
  obtain ⟨number, -, rfl⟩ := hone'
  obtain ⟨second, -, rfl⟩ := hother
  rw [hstats, hstats] at hle hge
  rw [show number = second by omega]

/-- Whoever holds the shared state, the run's directory can be removed. -/
theorem removeDirectory_ok {context : Run.Context} {place : Storage.Place} (shared : Bool)
    (h : context.storage.Housed context.directory place) :
    removeDirectory context shared =
      ({ context with storage := context.storage.remove place }, .ok ()) := by
  cases shared <;> simp [removeDirectory, Run.Context.close, h.removeDirectory_ok]

/-- The end of such a run: it has a report, and that report is complete. -/
theorem conclude_ok {pipeline : Pipeline} {config : Run.Config} {place : Storage.Place}
    {tally : Tally} {notes : Notes} {heard : List Exit}
    (hshows : pipeline.crew.context.Shows config place tally)
    (hsettled : pipeline.crew.Settled config tally)
    (hall : ∀ index < pipeline.crew.workers.length, (pipeline.report index).isSome)
    (htold : notes.Told heard) (hheard : heard.Perm pipeline.exits) (shared : Bool) :
    ∃ after report, conclude pipeline.crew.context shared notes = (after, .ok report) ∧
      report.Complete config ∧ Crew.Settled ⟨after, pipeline.crew.workers⟩ config tally := by
  obtain ⟨hstaged, elapsed, hproduced⟩ := exits_settled hsettled hall
  obtain ⟨latency, hcollect, hstages, hrecords, hlast, hincomplete, hanomalies, hsamples⟩ :=
    hsettled.collectLog
  have hproducer : notes.producer = some ⟨config.count, elapsed⟩ := by
    have hperm := hheard.filterMap Exit.produced
    rw [hproduced, List.perm_singleton] at hperm
    rw [htold.producer, hperm]
    rfl
  have hnotes : notes.stages.Perm ((List.range config.stages).reverse.map fun number =>
      ⟨number + 1, config.count, config.count - 1⟩) := by
    rw [htold.stages, ← hstaged]
    exact hheard.filterMap Exit.staged
  have hsorted := sort_stages (fun _ => rfl) hnotes
  -- collecting changes nothing of the shared state but its journal
  obtain ⟨said, hcollected, hsaid, hlog, hsame, hstorage⟩ : ∃ said,
      Latency.collect pipeline.crew.context = (said, .ok latency) ∧
        said.Shows config place tally ∧ said.log = pipeline.crew.context.log ∧
          said.gates = pipeline.crew.context.gates ∧
            said.storage = pipeline.crew.context.storage := by
    refine ⟨pipeline.crew.context.say (.latencyCollected latency.records), ?_, hshows.say _, rfl,
      rfl, rfl⟩
    simp only [Latency.collect, hcollect, hincomplete, Nat.lt_irrefl, if_false]
  have hhoused := hsaid.sound.housed
  rw [hsaid.directory] at hhoused
  have hremove := removeDirectory_ok shared hhoused
  have hgates : said.gateValues.Perm ((List.range config.stages).map fun number =>
      (Gate.ofStage (number + 1), (config.count : Int) - 1)) := by
    refine hsaid.sound.snapshot_perm hsaid.opened ?_ ?_
    · intro stage hfirst hlast
      rw [hsame, hstorage]
      exact hsettled.gates stage hfirst hlast
    · have hcount := hsettled.count.1
      simp only [Gate.nothingCompleted]
      omega
  refine ⟨{ said with storage := said.storage.remove place },
    ⟨said.config.stages, ⟨config.count, elapsed⟩, _, latency, said.gateValues,
      notes.pretouchedPages⟩, ?_,
    ⟨by rw [hsaid.config], rfl, hsorted, hgates, hrecords, hlast, hincomplete, hanomalies,
      hsamples⟩,
    hsettled.move hsaid.layout ?_ hsame ?_⟩
  · simp only [conclude, htold.error, hproducer, hcollected, hrecords, ne_eq, not_true_eq_false,
      if_false, hremove]
  · change said.log.Holds _ _
    rw [hlog]
    exact hsettled.log
  · change said.storage.cells = _
    rw [hstorage]

end Pipeline

end GatedPipeline
