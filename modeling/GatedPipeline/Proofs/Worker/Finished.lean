import GatedPipeline.Proofs.Latency
import GatedPipeline.Proofs.Log.Partway
import GatedPipeline.Proofs.Worker.Punctual

/-!
Runs in which every worker has returned and none has failed. Whatever the order of the turns was,
the workers report the same, the gates stand at the same values, and the log holds all records of
the run with all their times.
-/

namespace GatedPipeline

namespace Worker

section Over

variable {config : Run.Config} {gates : Registry} {tally : Tally}

/-- A producer that is over without a failure has written all records. -/
theorem Producer.Follows.over {producer : Producer} (h : producer.Follows config tally)
    {deed : Deed} (hok : Worker.outcome (.producer producer) = some (.ok deed)) :
    (∃ elapsed, deed = .produced ⟨config.count, elapsed⟩) ∧ tally.stamped 0 = config.count := by
  obtain ⟨pause, phase⟩ := producer
  cases phase with
  | «over» outcome =>
      cases outcome with
      | error problem => cases hok
      | ok stats =>
          obtain ⟨written, elapsed⟩ := stats
          obtain ⟨rfl, hfull⟩ := h
          cases hok
          exact ⟨⟨elapsed, rfl⟩, hfull⟩
  | _ => cases hok

/-- A stage that is over without a failure has completed all records. -/
theorem Stage.Follows.over {stage : Stage} (h : stage.Follows config gates tally) {deed : Deed}
    (hok : Worker.outcome (.stage stage) = some (.ok deed)) :
    deed = .staged ⟨stage.number, config.count, config.count - 1⟩ ∧
      tally.completed stage.number = config.count ∧ tally.stamped stage.number = config.count := by
  obtain ⟨number, pause, phase⟩ := stage
  cases phase with
  | «over» outcome =>
      cases outcome with
      | error problem => cases hok
      | ok stats =>
          obtain ⟨hstats, hdone, hfull⟩ := h
          cases hok
          exact ⟨congrArg Deed.staged hstats, hdone, hfull⟩
  | _ => cases hok

end Over

end Worker

namespace Crew

open Worker

def Failed (crew : Crew) : Prop :=
  ∃ worker ∈ crew.workers, ∃ problem, worker.outcome = some (.error problem)

def Succeeded (crew : Crew) : Prop :=
  ∀ worker ∈ crew.workers, ∃ deed, worker.outcome = some (.ok deed)

instance (crew : Crew) : Decidable crew.Succeeded :=
  decidable_of_iff (∀ worker ∈ crew.workers, worker.outcome.any (·.toOption.isSome)) <| by
    apply forall_congr'
    intro worker
    apply forall_congr'
    intro _
    cases worker.outcome with
    | none => simp
    | some outcome => cases outcome <;> simp [Except.toOption]

theorem Succeeded.never {crew : Crew} (h : crew.Succeeded) : ¬ crew.Failed := by
  rintro ⟨worker, hworker, problem, hproblem⟩
  obtain ⟨deed, hdeed⟩ := h worker hworker
  rw [hdeed] at hproblem
  cases hproblem

/-- All workers have returned, and the tally is full. Of the shared state this needs the log and the
values of the gates, not the run's directory. -/
structure Settled (crew : Crew) (config : Run.Config) (tally : Tally) : Prop where
  count : 0 < config.count ∧ (config.count : Int) < signedLimit
  valid : (Layout.mk config.stages).Valid
  layout : crew.context.log.layout = ⟨config.stages⟩
  log : crew.context.log.Holds config.count (tally.content config.count)
  gates : ∀ stage, 1 ≤ stage → stage ≤ config.stages →
    crew.context.gate stage = (config.count : Int) - 1
  roles : crew.workers.map Worker.role = roles config.stages
  producer : ∀ worker ∈ crew.workers, worker.role = .producer →
    ∃ elapsed, worker.outcome = some (.ok (.produced ⟨config.count, elapsed⟩))
  stages : ∀ worker ∈ crew.workers, ∀ stage, worker.role = .stage stage →
    worker.outcome = some (.ok (.staged ⟨stage, config.count, config.count - 1⟩))
  stamped : ∀ slot ≤ config.stages, tally.stamped slot = config.count
  times : ∀ slot, ∀ time ∈ tally.times slot, 0 < time ∧ (time : Int) < signedLimit
  spaced : tally.Spaced config.stages fun _ => 0

/-- What a run without failures comes to. Every stage and the producer return with all records, and
every gate stands at the last record. The log holds exactly the records of the run, each announces
as many as come after it, and every slot of each holds a time other than zero. Collecting over the
log then finds all of them, none incomplete and none an anomaly, with one sample for each. -/
structure Finished (crew : Crew) (config : Run.Config) : Prop where
  roles : crew.workers.map Worker.role = roles config.stages
  producer : ∀ worker ∈ crew.workers, worker.role = .producer →
    ∃ elapsed, worker.outcome = some (.ok (.produced ⟨config.count, elapsed⟩))
  stages : ∀ worker ∈ crew.workers, ∀ stage, worker.role = .stage stage →
    worker.outcome = some (.ok (.staged ⟨stage, config.count, config.count - 1⟩))
  gates : ∀ stage, 1 ≤ stage → stage ≤ config.stages →
    crew.context.gate stage = (config.count : Int) - 1
  appended : crew.context.log.appended = config.count
  entries : crew.context.log.entries =
    (List.range config.count).map (Layout.entryAt ⟨config.stages⟩)
  remaining : ∀ index < config.count,
    (crew.context.log.record (Layout.viewAt ⟨config.stages⟩ index)).remaining =
      (config.count : Int) - 1 - index
  stamped : ∀ index < config.count,
    (crew.context.log.record (Layout.viewAt ⟨config.stages⟩ index)).times.length =
        config.stages + 1 ∧
      ∀ time ∈ (crew.context.log.record (Layout.viewAt ⟨config.stages⟩ index)).times, time ≠ 0
  collected : ∃ report, (Latency.collect crew.context).2 = .ok report ∧
    report.records = config.count ∧ report.lastRemaining = some 0 ∧ report.incomplete = 0 ∧
      report.anomalies = 0 ∧ report.histogram.total = config.count

section InStep

variable {crew : Crew} {config : Run.Config} {place : Storage.Place} {tally : Tally} {latest : Nat}
  (h : crew.InStep config place tally)

include h

/-- The count of a run fits a signed word, since its records fit the log. -/
theorem InStep.count_signed : (config.count : Int) < signedLimit := by
  have hend := Log.endAfter_le_capacity h.shows.log.sound h.shows.room
  have hmul := crew.context.log.layout.mul_le_endAfter config.count
  have hsmall := h.shows.log.sound.small
  omega

private theorem InStep.producer_over (hok : crew.Succeeded) {worker : Worker}
    (hworker : worker ∈ crew.workers) (hrole : worker.role = .producer) :
    (∃ elapsed, worker.outcome = some (.ok (.produced ⟨config.count, elapsed⟩))) ∧
      tally.stamped 0 = config.count := by
  obtain ⟨deed, hdeed⟩ := hok worker hworker
  cases worker with
  | stage worker => cases hrole
  | producer worker =>
      obtain ⟨⟨elapsed, rfl⟩, hfull⟩ := Producer.Follows.over (h.follows _ hworker) hdeed
      exact ⟨⟨elapsed, hdeed⟩, hfull⟩

private theorem InStep.stage_over (hok : crew.Succeeded) {worker : Worker}
    (hworker : worker ∈ crew.workers) {stage : Nat} (hrole : worker.role = .stage stage) :
    worker.outcome = some (.ok (.staged ⟨stage, config.count, config.count - 1⟩)) ∧
      tally.completed stage = config.count ∧ tally.stamped stage = config.count := by
  obtain ⟨deed, hdeed⟩ := hok worker hworker
  cases worker with
  | producer worker => cases hrole
  | stage worker =>
      cases hrole
      obtain ⟨rfl, hdone, hfull⟩ := Stage.Follows.over (h.follows _ hworker).2.2 hdeed
      exact ⟨hdeed, hdone, hfull⟩

/-- Workers that have all returned without failing have completed every record. -/
private theorem InStep.full (hok : crew.Succeeded) {stage : Nat} (hfirst : 1 ≤ stage)
    (hlast : stage ≤ config.stages) :
    tally.completed stage = config.count ∧ tally.stamped stage = config.count := by
  have hrole : Role.stage stage ∈ crew.workers.map Worker.role := by
    rw [h.roles]
    exact mem_roles.mpr (.inr ⟨stage, hfirst, hlast, rfl⟩)
  obtain ⟨worker, hworker, hsame⟩ := List.mem_map.mp hrole
  exact (h.stage_over hok hworker hsame).2

/-- And they have stamped every slot of every record. -/
theorem InStep.stamped_all (hok : crew.Succeeded) :
    ∀ slot ≤ config.stages, tally.stamped slot = config.count := by
  intro slot hslot
  cases slot with
  | succ stage => exact (h.full hok (by omega) hslot).2
  | zero =>
      have hrole : Role.producer ∈ crew.workers.map Worker.role := by
        rw [h.roles]
        exact mem_roles.mpr (.inl rfl)
      obtain ⟨worker, hworker, hsame⟩ := List.mem_map.mp hrole
      exact (h.producer_over hok hworker hsame).2

/-- Workers that have all returned without failing leave a full tally. -/
theorem InStep.settled {held : Nat → Option Nat}
    (hpunctual : crew.Punctual (.signed config) tally held latest) (hok : crew.Succeeded) :
    crew.Settled config tally := by
  constructor
  case count => exact ⟨h.count.1, h.count_signed⟩
  case valid => exact h.layout
  case layout => exact h.shows.layout
  case log =>
    have hlog := h.shows.log
    rwa [h.stamped_all hok 0 (Nat.zero_le _)] at hlog
  case gates =>
    intro stage hfirst hlast
    rw [h.shows.gates stage hfirst hlast, (h.full hok hfirst hlast).1]
  case roles => exact h.roles
  case producer => exact fun worker hworker hrole => (h.producer_over hok hworker hrole).1
  case stages => exact fun worker hworker stage hrole => (h.stage_over hok hworker hrole).1
  case stamped => exact h.stamped_all hok
  case times => exact hpunctual.bounds
  case spaced => exact hpunctual.spaced

end InStep

theorem Settled.succeeded {crew : Crew} {config : Run.Config} {tally : Tally}
    (h : crew.Settled config tally) : crew.Succeeded := by
  intro worker hworker
  cases hrole : worker.role with
  | producer =>
      obtain ⟨elapsed, houtcome⟩ := h.producer worker hworker hrole
      exact ⟨_, houtcome⟩
  | stage stage => exact ⟨_, h.stages worker hworker stage hrole⟩

section Settled

variable {crew : Crew} {config : Run.Config} {tally : Tally} (h : crew.Settled config tally)

include h

private theorem Settled.record (index : Nat) :
    crew.context.log.record (Layout.viewAt ⟨config.stages⟩ index) =
      ⟨(List.range (config.stages + 2)).map (tally.content config.count index)⟩ := by
  have hrecord := Log.record_viewAt h.log index
  rw [h.layout] at hrecord
  exact hrecord

/-- Every slot of every record has a time of the tally. -/
private theorem Settled.time {index slot : Nat} (hindex : index < config.count)
    (hslot : slot ≤ config.stages) : ∃ time, (tally.times slot)[index]? = some time ∧
      tally.content config.count index (slot + 1) = UInt64.ofNat time ∧ 0 < time ∧
      (time : Int) < signedLimit := by
  have hlength := h.stamped slot hslot
  simp only [Tally.stamped] at hlength
  have hlt : index < (tally.times slot).length := by omega
  have hfound := List.getElem?_eq_getElem hlt
  obtain ⟨hpositive, hsmall⟩ := h.times slot _ (List.getElem_mem hlt)
  refine ⟨_, hfound, ?_, hpositive, hsmall⟩
  simp [Tally.content, hfound]

private theorem Settled.timeAt {index slot : Nat} (hindex : index < config.count)
    (hslot : slot ≤ config.stages) : ∃ time : Nat, (tally.times slot)[index]? = some time ∧
      Record.timeAt ⟨(List.range (config.stages + 2)).map (tally.content config.count index)⟩ slot =
        time := by
  obtain ⟨time, hfound, hcontent, -, hsmall⟩ := h.time hindex hslot
  refine ⟨time, hfound, ?_⟩
  have hat : slot + 1 < config.stages + 2 := by omega
  simp [Record.timeAt, List.getD_eq_getElem?_getD, hat, hcontent, Word.signed_ofNat hsmall]

private theorem Settled.stampedWords {index : Nat} (hindex : index < config.count) :
    ∀ time ∈ Record.times
      ⟨(List.range (config.stages + 2)).map (tally.content config.count index)⟩, time ≠ 0 := by
  intro word hword
  rw [Record.times, List.range_succ_eq_map, List.map_cons, List.drop_succ_cons, List.drop_zero,
    List.map_map, List.mem_map] at hword
  obtain ⟨slot, hslot, rfl⟩ := hword
  obtain ⟨time, -, hcontent, hpositive, hsmall⟩ :=
    h.time hindex (Nat.lt_succ_iff.mp (List.mem_range.mp hslot))
  simp only [Function.comp, Nat.succ_eq_add_one, hcontent, ne_eq]
  rw [Word.ofNat_eq_zero (by simp only [signedLimit, wordLimit] at *; omega)]
  omega

private theorem Settled.through {index : Nat} (hindex : index < config.count) :
    Latency.Through ⟨(List.range (config.stages + 2)).map (tally.content config.count index)⟩
      config.stages := by
  have hfew := h.valid.few_stages
  refine ⟨⟨⟨by simp, by simp only [maxStages, wordLimit] at *; omega⟩, ?_⟩, ?_, ?_⟩
  · intro slot hslot
    obtain ⟨time, -, htime⟩ := h.timeAt hindex hslot
    rw [htime]
    omega
  · simpa [Record.isComplete] using h.stampedWords hindex
  · obtain ⟨first, hfirst, htime⟩ := h.timeAt hindex (Nat.zero_le _)
    obtain ⟨last, hlast, htime'⟩ := h.timeAt hindex (Nat.le_refl _)
    obtain ⟨produced, hproduced, hle⟩ := h.spaced.since_production (Nat.le_refl _) hlast
    rw [hfirst] at hproduced
    cases hproduced
    rw [htime, htime']
    omega

private theorem Settled.remaining {index : Nat} (hindex : index < config.count) :
    Record.remaining ⟨(List.range (config.stages + 2)).map (tally.content config.count index)⟩ =
      ((config.count - 1 - index : Nat) : Int) := by
  have hcount := h.count.2
  have hproduced := h.stamped 0 (Nat.zero_le _)
  rw [Record.remaining, List.range_succ_eq_map, List.map_cons, List.getD_cons_zero]
  simp only [Tally.content, hproduced, if_pos hindex, Producer.toCome, Word.ofSigned_signed]
  exact Word.signed_ofNat (by omega)

theorem Settled.collectLog : ∃ report, Latency.collectLog crew.context.log = .ok report ∧
    report.stages = config.stages ∧ report.records = config.count ∧
      report.lastRemaining = some 0 ∧ report.incomplete = 0 ∧ report.anomalies = 0 ∧
        report.histogram.total = config.count := by
  obtain ⟨report, hreport, hclean, hlast⟩ := Latency.addUpTo_run
    (fun index hindex => h.through hindex) (fun index hindex => h.remaining hindex) h.count.1
    (.start config.stages) rfl
  rw [Nat.sub_zero] at hclean hreport
  rw [← List.range_eq_range'] at hreport
  refine ⟨report, ?_, hclean.stages, ?_, hlast, hclean.incomplete, hclean.anomalies, ?_⟩
  · rw [Latency.collectLog_eq h.log, h.layout]
    exact hreport
  · exact hclean.records.trans (Nat.zero_add _)
  · exact hclean.samples.trans (Nat.zero_add _)

/-- The files of a settled run no longer matter, except for the counters of the gates. -/
theorem Settled.move {context : Run.Context} (hlayout : context.log.layout = ⟨config.stages⟩)
    (hlog : context.log.Holds config.count (tally.content config.count))
    (hgates : context.gates = crew.context.gates)
    (hcells : context.storage.cells = crew.context.storage.cells) :
    Settled ⟨context, crew.workers⟩ config tally := by
  refine ⟨h.count, h.valid, hlayout, hlog, fun stage hfirst hlast => ?_, h.roles, h.producer,
    h.stages, h.stamped, h.times, h.spaced⟩
  rw [← h.gates stage hfirst hlast]
  have hread : Gate.read context.storage = Gate.read crew.context.storage := by
    funext gate
    simp only [Gate.read, Storage.cell, Storage.counter, hcells]
  simp only [Run.Context.gate, Registry.value, hgates, hread]

theorem Settled.finished : crew.Finished config := by
  obtain ⟨report, hreport, -, hrecords⟩ := h.collectLog
  constructor
  case roles => exact h.roles
  case producer => exact h.producer
  case stages => exact h.stages
  case gates => exact h.gates
  case appended => exact h.log.appended
  case entries => rw [Tailer.entries_eq h.log.sound h.log.framed h.log.fits, h.layout]
  case remaining =>
    intro index hindex
    rw [h.record, h.remaining hindex]
    omega
  case stamped =>
    intro index hindex
    rw [h.record]
    exact ⟨by simp [Record.times], h.stampedWords hindex⟩
  case collected =>
    refine ⟨report, ?_, hrecords⟩
    rw [Latency.collect, hreport]

end Settled

end Crew

end GatedPipeline
