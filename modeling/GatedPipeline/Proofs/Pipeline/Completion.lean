import GatedPipeline.Proofs.Pipeline.Phases

/-!
Whole runs in which no worker fails. However the turns of the workers, of the pretoucher and of the
supervisor are interleaved, and in whatever order the reports arrive, the run comes to the same end.
-/

namespace GatedPipeline.Pipeline

open Worker

/-- A schedule by a clock that never goes back, from where it shows `latest` and some workers hold a
reading. A worker reads the clock at some moment after its last turn, and its next turn is taken
with that reading; the others may read the clock and take turns in between. All readings are
positive and signed words. -/
inductive Clocked : (held : Nat → Option Nat) → (latest : Nat) → List Turn → Prop
  | done {held : Nat → Option Nat} {latest : Nat} : Clocked held latest []
  | read {held : Nat → Option Nat} {latest now : Nat} {schedule : List Turn} (index : Nat)
      (later : latest ≤ now) (positive : 0 < now) (small : (now : Int) < signedLimit)
      (rest : Clocked (Crew.hold held index (some now)) now schedule) :
      Clocked held latest schedule
  | work {held : Nat → Option Nat} {latest index now : Nat} {schedule : List Turn}
      (taken : held index = some now)
      (rest : Clocked (Crew.hold held index none) latest schedule) :
      Clocked held latest (.worker index now :: schedule)
  | pretoucher {held : Nat → Option Nat} {latest : Nat} {schedule : List Turn}
      (rest : Clocked held latest schedule) : Clocked held latest (.pretoucher :: schedule)
  | supervisor {held : Nat → Option Nat} {latest : Nat} {schedule : List Turn} (patient : Bool)
      (rest : Clocked held latest schedule) : Clocked held latest (.supervisor patient :: schedule)

def readings (schedule : List Turn) : List Nat :=
  schedule.filterMap fun turn =>
    match turn with
    | .worker _ now => some now
    | .pretoucher | .supervisor _ => none

/-- The workers may read the clock in their turns. -/
theorem Clocked.of_forward {schedule : List Turn} {latest : Nat}
    (hforward : (latest :: readings schedule).Pairwise (· ≤ ·))
    (hreadings : ∀ now ∈ readings schedule, 0 < now ∧ (now : Int) < signedLimit)
    (held : Nat → Option Nat) : Clocked held latest schedule := by
  induction schedule generalizing held latest with
  | nil => exact .done
  | cons turn rest ih =>
      cases turn with
      | pretoucher => exact .pretoucher (ih hforward hreadings held)
      | supervisor patient => exact .supervisor patient (ih hforward hreadings held)
      | worker index now =>
          have hnow : readings (.worker index now :: rest) = now :: readings rest := rfl
          rw [hnow] at hforward hreadings
          obtain ⟨hlater, hforward⟩ := List.pairwise_cons.mp hforward
          obtain ⟨hpositive, hsmall⟩ := hreadings now List.mem_cons_self
          refine .read index (hlater now List.mem_cons_self) hpositive hsmall
            (.work (if_pos rfl) ?_)
          exact ih hforward (fun next hnext => hreadings next (List.mem_cons_of_mem _ hnext)) _

/-- Where a run stands in which no worker has failed. -/
inductive Stands (config : Run.Config) (place : Storage.Place) (pipeline : Pipeline) : Prop where
  | running {tally : Tally} {held : Nat → Option Nat} {latest : Nat} {heard : List Exit}
      (running : pipeline.Running config place tally held latest heard)
  | concluded {tally : Tally} (concluded : pipeline.Concluded config tally)

section Ends

variable {pipeline : Pipeline} {config : Run.Config} {place : Storage.Place} {tally : Tally}
  {held : Nat → Option Nat} {latest : Nat} {heard : List Exit}

/-- When all reports are sent, every turn of the supervisor that does not wait brings it nearer to
its end. -/
theorem Running.rank_supervise (h : pipeline.Running config place tally held latest heard)
    (hsent : ∀ index < pipeline.crew.workers.length, pipeline.sent[index]? = some true)
    (patient : Bool) :
    (pipeline.supervise patient).supervisor.rank pipeline.crew.workers.length ≤
        pipeline.supervisor.rank pipeline.crew.workers.length ∧
      (patient = false → (pipeline.supervise patient).supervisor.rank pipeline.crew.workers.length <
        pipeline.supervisor.rank pipeline.crew.workers.length) := by
  have hreports := h.reports.length_eq
  rw [List.length_append, h.mail.exits_sent hsent] at hreports
  have htold := h.supervisor
  have hreceived : ∀ notes, pipeline.supervisor = .receive notes →
      notes.received = heard.length := by
    intro notes hduty
    rw [hduty] at htold
    exact htold.received
  obtain ⟨hle, hlt⟩ := Pipeline.rank_supervise
    (fun notes hduty => by rw [hreceived notes hduty]; omega) patient
  refine ⟨hle, fun hpatient => hlt hpatient ?_ ?_⟩
  · cases hduty : pipeline.supervisor with
    | returned outcome => exact absurd hduty (h.not_returned outcome)
    | _ => simp only [hasReturned, hduty]
  · -- all reports are received, and the supervisor knows
    rintro ⟨notes, hduty, hmissing, hempty⟩
    rw [hreceived notes hduty] at hmissing
    rw [hempty, List.length_nil] at hreports
    omega

private theorem workers_turn (hok : pipeline.crew.Succeeded) (turn : Turn) :
    (pipeline.turn turn).crew.workers = pipeline.crew.workers := by
  cases turn with
  | pretoucher => exact (pretouch_others pipeline).1
  | supervisor patient => exact pipeline.supervise_workers patient
  | worker index now =>
      change (pipeline.work index now).crew.workers = pipeline.crew.workers
      cases hworker : pipeline.crew.workers[index]? with
      | none => rw [work_none now hworker]
      | some worker =>
          obtain ⟨deed, houtcome⟩ := hok worker (List.mem_of_getElem? hworker)
          rw [work_over now hworker houtcome]
          split <;> rfl

private theorem workers_run (hok : pipeline.crew.Succeeded) (schedule : List Turn) :
    (pipeline.run schedule).crew.workers = pipeline.crew.workers := by
  induction schedule generalizing pipeline with
  | nil => rfl
  | cons turn rest ih =>
      have hworkers := workers_turn hok turn
      have hafter : (pipeline.turn turn).crew.Succeeded := by rwa [Crew.Succeeded, hworkers]
      have hrest := ih hafter
      exact hrest.trans hworkers

private theorem failed_run (hfailed : pipeline.crew.Failed) (schedule : List Turn) :
    (pipeline.run schedule).crew.Failed := by
  obtain ⟨worker, hworker, problem, hproblem⟩ := hfailed
  obtain ⟨index, hat⟩ := List.mem_iff_getElem?.mp hworker
  have hlater := over_run hat (by rw [hproblem]; rfl) schedule
  exact ⟨worker, List.mem_of_getElem? hlater, problem, hproblem⟩

/-- While the workers, all over, send their reports. -/
private theorem Running.run_over (h : pipeline.Running config place tally held latest heard)
    (hok : pipeline.crew.Succeeded) (schedule : List Turn) :
    (∃ more, (pipeline.run schedule).Running config place tally held latest more) ∨
      (pipeline.run schedule).Concluded config tally := by
  induction schedule generalizing pipeline heard with
  | nil => exact .inl ⟨heard, h⟩
  | cons turn rest ih =>
      rcases h.turn_over hok turn with ⟨more, hmore⟩ | hconcluded
      · exact ih hmore (by rwa [Crew.Succeeded, workers_turn hok turn])
      · exact .inr (hconcluded.run rest)

/-- And no turn of anyone takes it further away. -/
private theorem Running.rank_turn (h : pipeline.Running config place tally held latest heard)
    (hsent : ∀ index < pipeline.crew.workers.length, pipeline.sent[index]? = some true)
    (turn : Turn) :
    (pipeline.turn turn).supervisor.rank pipeline.crew.workers.length +
        [turn].count (.supervisor false) ≤
      pipeline.supervisor.rank pipeline.crew.workers.length := by
  cases turn with
  | worker index now =>
      have hsame : (pipeline.turn (.worker index now)).supervisor = pipeline.supervisor :=
        work_supervisor pipeline index now
      simp [hsame]
  | pretoucher =>
      have hsame : (pipeline.turn .pretoucher).supervisor = pipeline.supervisor :=
        (pretouch_others pipeline).2.2.2
      simp [hsame]
  | supervisor patient =>
      obtain ⟨hle, hlt⟩ := h.rank_supervise hsent patient
      cases patient with
      | false => exact hlt rfl
      | true => exact hle

/-- With all reports sent and enough turns of the supervisor, the run ends. -/
private theorem Running.ends (h : pipeline.Running config place tally held latest heard)
    (hok : pipeline.crew.Succeeded)
    (hsent : ∀ index < pipeline.crew.workers.length, pipeline.sent[index]? = some true)
    {schedule : List Turn} (henough : pipeline.supervisor.rank pipeline.crew.workers.length ≤
      schedule.count (.supervisor false)) :
    (pipeline.run schedule).Concluded config tally := by
  -- without turns left the rank is zero, and that it is only once the supervisor has returned
  induction schedule generalizing pipeline heard with
  | nil =>
      cases hduty : pipeline.supervisor with
      | returned outcome => exact absurd hduty (h.not_returned outcome)
      | _ => simp [hduty, Duty.rank] at henough
  | cons turn rest ih =>
      rcases h.turn_over hok turn with ⟨more, hrunning⟩ | hconcluded
      · have hworkers := workers_turn hok turn
        have hrank := h.rank_turn hsent turn
        have hcount : (turn :: rest).count (.supervisor false) =
            [turn].count (.supervisor false) + rest.count (.supervisor false) := by
          rw [← List.count_append, List.singleton_append]
        refine ih hrunning ?_ ?_ ?_
        · rwa [Crew.Succeeded, hworkers]
        · intro index hindex
          rw [hworkers] at hindex
          exact sent_run (hsent index hindex) [turn]
        · rw [hworkers]
          omega
      · exact hconcluded.run rest

/-- A run in which no worker fails, as long as the clock does not go back. -/
theorem Running.run {schedule : List Turn} (hclock : Clocked held latest schedule)
    (h : pipeline.Running config place tally held latest heard)
    (hnever : ¬ (pipeline.run schedule).crew.Failed) :
    Stands config place (pipeline.run schedule) := by
  induction hclock generalizing pipeline tally heard with
  | done => exact .running h
  | read index hlate hpositive hsmall _ ih =>
      exact ih (h.read index hlate hpositive hsmall) hnever
  | work htaken _ ih =>
      obtain ⟨after, hafter⟩ := h.work htaken
      exact ih hafter hnever
  | pretoucher _ ih => exact ih h.pretouch hnever
  | supervisor patient _ ih =>
      have hbefore : ¬ pipeline.crew.Failed := fun hfailed => hnever (failed_run hfailed _)
      rcases h.supervise hbefore patient with ⟨more, hmore⟩ | hconcluded
      · exact ih hmore hnever
      · exact .concluded (hconcluded.run _)

/-- Where the run has come to when no worker is at work any more. -/
private theorem Stands.finished (h : Stands config place pipeline)
    (hok : pipeline.crew.Succeeded) : pipeline.crew.Finished config := by
  cases h with
  | concluded hconcluded => exact hconcluded.settled.finished
  | running hrunning =>
      exact (hrunning.crew.settled hrunning.punctual hok).finished

theorem Stands.returned (h : Stands config place pipeline)
    {outcome : Except Problem Run.Report} (houtcome : pipeline.outcome = some outcome) :
    ∃ report, outcome = .ok report ∧ report.Complete config := by
  cases h with
  | concluded hconcluded =>
      obtain ⟨report, hreported, hcomplete⟩ := hconcluded.outcome
      rw [hreported] at houtcome
      cases houtcome
      exact ⟨report, rfl, hcomplete⟩
  | running hrunning =>
      rw [Pipeline.outcome] at houtcome
      split at houtcome
      · rename_i hduty
        exact absurd hduty (hrunning.not_returned _)
      · cases houtcome

/-- From there on the reports are sent, each in a turn of its worker, and then received. -/
private theorem Stands.returns (h : Stands config place pipeline)
    (hok : pipeline.crew.Succeeded) {sends rest : List Turn}
    (hsends : ∀ index ≤ config.stages, ∃ now, .worker index now ∈ sends)
    (henough : 2 * config.stages + 6 ≤ rest.count (.supervisor false)) :
    ∃ report, ((pipeline.run sends).run rest).outcome = some (.ok report) ∧
      report.Complete config := by
  cases h with
  | concluded hconcluded => exact ((hconcluded.run sends).run rest).outcome
  | running hrunning =>
      rcases hrunning.run_over hok sends with ⟨more, hmore⟩ | hconcluded
      · have hworkers := workers_run hok sends
        have hlength := hrunning.crew.length
        have hsent : ∀ index < (pipeline.run sends).crew.workers.length,
            (pipeline.run sends).sent[index]? = some true := by
          intro index hindex
          rw [hworkers] at hindex
          obtain ⟨now, hturn⟩ := hsends index (by omega)
          obtain ⟨deed, hdeed⟩ := hok _ (List.getElem_mem hindex)
          exact Pipeline.sends (List.getElem?_eq_getElem hindex) (by rw [hdeed]; rfl)
            (hrunning.slots.symm ▸ hindex) hturn
        have hrank := Duty.rank_le (pipeline.run sends).crew.workers.length
          (pipeline.run sends).supervisor
        have hcount : (pipeline.run sends).supervisor.rank
            (pipeline.run sends).crew.workers.length ≤ rest.count (.supervisor false) := by
          rw [hworkers] at hrank ⊢
          omega
        exact (hmore.ends (by rwa [Crew.Succeeded, hworkers]) hsent hcount).outcome
      · exact (hconcluded.run rest).outcome

end Ends

theorem start_running {config : Run.Config} {context : Run.Context} {place : Storage.Place}
    (h : context.Fresh config place) (pause : Role → Pause) :
    (start context pause).Running config place .start (fun _ => none) 0 [] := by
  have hunsent : ∀ index : Nat, (start context pause).sent[index]? ≠ some true := by
    intro index hsent
    simp only [start, List.getElem?_map, Option.map_eq_some_iff] at hsent
    obtain ⟨worker, -, hfalse⟩ := hsent
    cases hfalse
  constructor
  case crew => exact Crew.start_inStep h pause
  case punctual => exact Crew.start_punctual context (.signed config) pause
  case slots => simp [start]
  case reported => exact fun index hsent => absurd hsent (hunsent index)
  case reports =>
    have hnone : (start context pause).exits = [] := by
      rw [exits, List.filterMap_eq_nil_iff]
      intro index _
      rw [report, if_neg]
      rw [List.getD_eq_getElem?_getD, Option.getD_eq_iff]
      simpa using hunsent index
    rw [hnone]
    exact List.Perm.refl _
  case supervisor => exact ⟨rfl, rfl, rfl, rfl⟩

/-- On a context that has just been made, a run whose workers have all returned without failing has
come to the same end in whatever order they took their turns. The supervisor returns no error, and
it does return once every worker has had the turn to send its report and the supervisor a few turns
in which it does not wait for the pretoucher. -/
theorem run_completes {storage : Storage} {config : Run.Config} {context : Run.Context}
    (htree : storage.IsTree) (hcreate : Run.Context.create storage config = .ok context)
    (pause : Role → Pause) (schedule : List Turn)
    (hclock : Clocked (fun _ => none) 0 schedule)
    (hok : ((start context pause).run schedule).crew.Succeeded) :
    ((start context pause).run schedule).crew.Finished config ∧
      (∀ outcome, ((start context pause).run schedule).outcome = some outcome →
        ∃ report, outcome = .ok report ∧ report.Complete config) ∧
      ∀ sends rest, (∀ index ≤ config.stages, ∃ now, .worker index now ∈ sends) →
        2 * config.stages + 6 ≤ rest.count (.supervisor false) →
          ∃ report, ((start context pause).run (schedule ++ sends ++ rest)).outcome =
            some (.ok report) ∧ report.Complete config := by
  obtain ⟨place, hfresh⟩ := Run.Context.create_fresh htree hcreate
  have hstands := (start_running hfresh pause).run hclock hok.never
  refine ⟨hstands.finished hok, fun outcome houtcome => hstands.returned houtcome, ?_⟩
  intro sends rest hsends henough
  have hlater : (start context pause).run (schedule ++ sends ++ rest) =
      (((start context pause).run schedule).run sends).run rest := by
    simp only [Pipeline.run, List.foldl_append]
  rw [hlater]
  exact hstands.returns hok hsends henough

/-- Two records and two stages by the plain schedule, in which the supervisor waits. When the
workers are over, each has one turn more, and the supervisor some in which it does not wait. -/
theorem run_completes_two_stages : ∃ context,
    Run.Context.create .empty (.plain 2 2 "/out") = .ok context ∧
      let pipeline := (start context fun _ => .spinning).run
        ((List.range 90).map (inTurn 3 Nat.succ))
      pipeline.crew.Finished (.plain 2 2 "/out") ∧
        ∃ report, (pipeline.run ([.worker 0 1, .worker 1 1, .worker 2 1] ++
          List.replicate 10 (.supervisor false))).outcome = some (.ok report) ∧
            report.Complete (.plain 2 2 "/out") := by
  have hshown : (Run.Context.create .empty (.plain 2 2 "/out")).toOption.map (fun context =>
      decide ((start context fun _ => .spinning).run
        ((List.range 90).map (inTurn 3 Nat.succ))).crew.Succeeded) = some true := by
    decide +kernel
  cases hcreate : Run.Context.create .empty (.plain 2 2 "/out") with
  | error problem => simp [hcreate, Except.toOption] at hshown
  | ok context =>
      simp only [hcreate, Except.toOption, Option.map_some, Option.some.injEq,
        decide_eq_true_eq] at hshown
      obtain ⟨hfinished, -, hends⟩ := run_completes Storage.empty_isTree hcreate
        (fun _ => .spinning) ((List.range 90).map (inTurn 3 Nat.succ))
        (.of_forward (by decide +kernel) (by decide +kernel) _) hshown
      have hsends : ∀ index ≤ 2, Turn.worker index 1 ∈
          [Turn.worker 0 1, .worker 1 1, .worker 2 1] := by
        decide
      obtain ⟨report, hreport, hcomplete⟩ := hends [.worker 0 1, .worker 1 1, .worker 2 1]
        (List.replicate 10 (.supervisor false)) (fun index hindex => ⟨1, hsends index hindex⟩)
        (by decide)
      refine ⟨context, rfl, hfinished, report, ?_, hcomplete⟩
      rw [List.append_assoc] at hreport
      simpa only [run, List.foldl_append] using hreport

end GatedPipeline.Pipeline
