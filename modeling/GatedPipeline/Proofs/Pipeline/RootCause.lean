import GatedPipeline.Proofs.Pipeline.Errors

/-!
A run with a failure comes to its end. The report of the worker that failed is received, the run is
asked to give up, all workers return and report, and the supervisor with them: with the first error
that came in.
-/

namespace GatedPipeline.Pipeline

open Worker

def reached (pipeline : Pipeline) (schedule : Nat → Turn) (moment : Nat) : Pipeline :=
  pipeline.run ((List.range moment).map schedule)

/-- From every moment of an endless schedule on every worker gets another turn, at a time past the
end of the delay that it was keeping, and the supervisor one in which it does not go on waiting for
the pretoucher. -/
structure Serves (start : Pipeline) (schedule : Nat → Turn) (workers : Nat) : Prop where
  workers : ∀ index < workers, ∀ moment, ∃ later now, moment ≤ later ∧
    (start.reached schedule moment).crew.spinEnd index ≤ now ∧
      (schedule later).reading index = some now
  supervisor : ∀ moment, ∃ later, moment ≤ later ∧ schedule later = .supervisor false

theorem Serves.turns {start : Pipeline} {schedule : Nat → Turn} {workers : Nat}
    (h : Serves start schedule workers) : ∀ index < workers, ∀ moment, ∃ later now,
      moment ≤ later ∧ (schedule later).reading index = some now := by
  intro index hindex moment
  obtain ⟨later, now, hlater, -, hreading⟩ := h.workers index hindex moment
  exact ⟨later, now, hlater, hreading⟩

theorem reached_succ (pipeline : Pipeline) (schedule : Nat → Turn) (moment : Nat) :
    pipeline.reached schedule (moment + 1) =
      (pipeline.reached schedule moment).turn (schedule moment) := by
  simp only [reached, run, List.range_succ, List.map_append, List.foldl_append, List.map_cons,
    List.map_nil, List.foldl_cons, List.foldl_nil]

/-- What a turn keeps, it keeps from any moment to all later ones. -/
theorem reached_keeps {pipeline : Pipeline} {schedule : Nat → Turn} (kept : Pipeline → Prop)
    (hturn : ∀ pipeline turn, kept pipeline → kept (pipeline.turn turn)) {moment later : Nat}
    (hlater : moment ≤ later) (h : kept (pipeline.reached schedule moment)) :
    kept (pipeline.reached schedule later) := by
  induction hlater with
  | refl => exact h
  | step _ ih =>
      rw [reached_succ]
      exact hturn _ _ ih

/-! ### The crew beside the tally -/

section InStep

variable {pipeline : Pipeline} {config : Run.Config} {place : Storage.Place} {tally : Tally}
  (h : pipeline.crew.InStep config place tally)

include h

private theorem inStep_pretouch (hworking : pipeline.hasReturned = false) :
    pipeline.pretouch.crew.InStep config place tally := by
  cases hpretoucher : pipeline.pretoucher with
  | running pages =>
      obtain ⟨log, touched, hpretouch, hlayout, hcapacity, hlog⟩ := h.shows.log.pretouch
      rw [pretouch_running hpretoucher hpretouch]
      exact ⟨h.count, h.layout, h.shows.relog hlayout hcapacity hlog, h.valid, h.follows, h.roles⟩
  | stopping pages =>
      rw [pretouch_stopping hpretoucher, hworking]
      exact h
  | stopped pages => exact (pretouch_over (by rw [hpretoucher]; rfl)).symm ▸ h
  | broken => exact (pretouch_over (by rw [hpretoucher]; rfl)).symm ▸ h

private theorem inStep_supervise (patient : Bool)
    (hworking : (pipeline.supervise patient).hasReturned = false) :
    (pipeline.supervise patient).crew.InStep config place tally := by
  rcases pipeline.supervise_crew patient with hcrew | hcrew | ⟨notes, hduty, -⟩
  · rwa [hcrew]
  · rw [hcrew]
    exact h.step .abort
  · obtain ⟨crew, sent, mailbox, pretoucher, supervisor⟩ := pipeline
    cases hduty
    cases hworking

/-- Until the supervisor returns, the crew is in step with a tally. -/
theorem inStep_turn (turn : Turn) (hworking : (pipeline.turn turn).hasReturned = false) :
    ∃ after, (pipeline.turn turn).crew.InStep config place after := by
  cases turn with
  | worker index now =>
      change ∃ after, (pipeline.work index now).crew.InStep config place after
      rcases pipeline.idle_or_over index with hidle | ⟨worker, outcome, hworker, houtcome⟩
      · rw [work_idle now hidle]
        exact ⟨_, h.step (.work index now)⟩
      · rw [work_over now hworker houtcome]
        split <;> exact ⟨tally, h⟩
  | pretoucher =>
      have hbefore : pipeline.hasReturned = false := by
        apply Bool.eq_false_iff.mpr
        intro hreturned
        rw [returned_turn hreturned .pretoucher] at hworking
        cases hworking
      have hafter := inStep_pretouch h hbefore
      exact ⟨tally, hafter⟩
  | supervisor patient => exact ⟨tally, inStep_supervise h patient hworking⟩

end InStep

theorem Turn.of_reading {turn : Turn} {index now : Nat} (h : turn.reading index = some now) :
    turn = .worker index now := by
  cases turn with
  | worker other time =>
      simp only [Turn.reading] at h
      split at h
      · rename_i hsame
        cases h
        rw [hsame]
      · cases h
  | pretoucher => cases h
  | supervisor patient => cases h

/-- The supervisor has received no more reports than there are workers. -/
theorem Reporting.received_le {pipeline : Pipeline} {stages : Nat} {posted heard : List Exit}
    (h : pipeline.Reporting stages posted heard) {notes : Notes}
    (hduty : pipeline.supervisor = .receive notes) :
    notes.received = heard.length ∧ notes.received ≤ pipeline.crew.workers.length := by
  have hhold := h.supervisor
  rw [hduty] at hhold
  have hmost := h.mail.length_le
  have hreceived := hhold.received
  exact ⟨hreceived, by omega⟩

/-- No turn of anyone takes the supervisor further from its end. -/
theorem Reporting.rank_le {pipeline : Pipeline} {stages : Nat} {posted heard : List Exit}
    (h : pipeline.Reporting stages posted heard) (turn : Turn) :
    (pipeline.turn turn).supervisor.rank pipeline.crew.workers.length ≤
      pipeline.supervisor.rank pipeline.crew.workers.length := by
  rcases pipeline.supervisor_turn turn with ⟨patient, rfl⟩ | hsame
  · exact (rank_supervise (fun notes hduty => (h.received_le hduty).2) patient).1
  · exact Nat.le_of_eq (congrArg _ hsame)

private theorem over_keeps {start : Pipeline} {schedule : Nat → Turn} {index : Nat}
    {worker : Worker} (hover : worker.outcome.isSome)
    {moment later : Nat} (hlater : moment ≤ later)
    (hworker : (start.reached schedule moment).crew.workers[index]? = some worker) :
    (start.reached schedule later).crew.workers[index]? = some worker :=
  reached_keeps (fun pipeline => pipeline.crew.workers[index]? = some worker)
    (fun _ turn hsame => over_turn hsame hover turn) hlater hworker

private theorem sent_keeps {start : Pipeline} {schedule : Nat → Turn} {index moment later : Nat}
    (hlater : moment ≤ later)
    (hsent : (start.reached schedule moment).sent[index]? = some true) :
    (start.reached schedule later).sent[index]? = some true :=
  reached_keeps (fun pipeline => pipeline.sent[index]? = some true)
    (fun _ turn hsame => sent_run hsame [turn]) hlater hsent

section Endless

variable {start : Pipeline} {config : Run.Config} {place : Storage.Place} {tally : Tally}
  (schedule : Nat → Turn) (hstart : start.Reporting config.stages [] [])
  (hcrew : start.crew.InStep config place tally)
  (hserves : Serves start schedule (config.stages + 1))

section Reporting

include hstart

private theorem reporting_reached (moment : Nat) : ∃ posted,
    (start.reached schedule moment).Reporting config.stages posted
      (start.heard ((List.range moment).map schedule)) :=
  ⟨_, hstart.run ((List.range moment).map schedule)⟩

private theorem length_reached (moment : Nat) :
    (start.reached schedule moment).crew.workers.length = config.stages + 1 := by
  obtain ⟨posted, h⟩ := reporting_reached schedule hstart moment
  have hlength := congrArg List.length h.roles
  simpa [Crew.roles] using hlength

private theorem rank_reached {moment later : Nat} (hlater : moment ≤ later) :
    (start.reached schedule later).supervisor.rank (config.stages + 1) ≤
      (start.reached schedule moment).supervisor.rank (config.stages + 1) := by
  induction hlater with
  | refl => exact Nat.le_refl _
  | @step between _ ih =>
      obtain ⟨posted, h⟩ := reporting_reached schedule hstart between
      have hturn := h.rank_le (schedule between)
      rw [length_reached schedule hstart] at hturn
      rw [reached_succ]
      exact Nat.le_trans hturn ih

/-- As long as the supervisor neither has returned nor waits for a report, its turns bring it nearer
to its end. -/
private theorem nearer {goal : Nat → Prop} {first : Nat}
    (hserved : ∀ moment, ∃ later, moment ≤ later ∧ schedule later = .supervisor false)
    (hgoal : ∀ moment, first ≤ moment → goal moment ∨
      (start.reached schedule moment).hasReturned = false ∧
        ¬ (start.reached schedule moment).Waits) :
    ∃ later, first ≤ later ∧ goal later := by
  refine reaches_of_descent
    (fun moment => (start.reached schedule moment).supervisor.rank (config.stages + 1))
    (fun moment hfirst => ?_) (Nat.le_refl first)
  obtain ⟨later, hlater, hturn⟩ := hserved moment
  rcases hgoal later (Nat.le_trans hfirst hlater) with hreached | ⟨hworking, hbusy⟩
  · exact ⟨later, hlater, .inl hreached⟩
  · refine ⟨later + 1, Nat.le_succ_of_le hlater, .inr ?_⟩
    obtain ⟨posted, h⟩ := reporting_reached schedule hstart later
    have hlt := (rank_supervise (fun notes hduty => (h.received_le hduty).2) false).2 rfl hworking
      hbusy
    rw [length_reached schedule hstart] at hlt
    have hle := rank_reached schedule hstart hlater
    rw [reached_succ, hturn]
    exact Nat.lt_of_lt_of_le hlt hle

/-- When all reports are sent, the supervisor returns. -/
private theorem returns_of_sent
    (hserved : ∀ moment, ∃ later, moment ≤ later ∧ schedule later = .supervisor false)
    {first : Nat} (hsent : ∀ index < config.stages + 1,
      (start.reached schedule first).sent[index]? = some true) :
    ∃ later, first ≤ later ∧ (start.reached schedule later).hasReturned = true := by
  apply nearer schedule hstart hserved
  intro moment hmoment
  cases hreturned : (start.reached schedule moment).hasReturned with
  | true => exact .inl rfl
  | false =>
      refine .inr ⟨rfl, ?_⟩
      rintro ⟨notes, hduty, hmissing, hempty⟩
      obtain ⟨posted, h⟩ := reporting_reached schedule hstart moment
      have hall : ∀ index < (start.reached schedule moment).crew.workers.length,
          (start.reached schedule moment).sent[index]? = some true := by
        intro index hindex
        rw [length_reached schedule hstart] at hindex
        exact sent_keeps hmoment (hsent index hindex)
      -- all reports are received, and the supervisor knows
      have hreports := h.mail.reports.length_eq
      rw [hempty, List.append_nil, h.mail.exits_sent hall] at hreports
      exact hmissing ((h.received_le hduty).1.trans hreports)

/-- A worker that is over sends its report. -/
private theorem sends_over
    (hserved : ∀ index < config.stages + 1, ∀ moment, ∃ later now, moment ≤ later ∧
      (schedule later).reading index = some now)
    {index moment : Nat} {worker : Worker}
    (hworker : (start.reached schedule moment).crew.workers[index]? = some worker)
    (hover : worker.outcome.isSome) :
    ∃ later, moment ≤ later ∧ (start.reached schedule later).sent[index]? = some true := by
  obtain ⟨hlt, -⟩ := List.getElem?_eq_some_iff.mp hworker
  rw [length_reached schedule hstart] at hlt
  obtain ⟨later, now, hlater, hreading⟩ := hserved index hlt moment
  obtain ⟨posted, h⟩ := reporting_reached schedule hstart later
  have hslot : index < (start.reached schedule later).sent.length := by
    rw [h.mail.slots, length_reached schedule hstart]
    exact hlt
  have hsends := sends (over_keeps hover hlater hworker) hover hslot
    (List.mem_singleton.mpr rfl : Turn.worker index now ∈ [.worker index now])
  refine ⟨later + 1, Nat.le_succ_of_le hlater, ?_⟩
  rw [reached_succ, Turn.of_reading hreading]
  exact hsends

/-- An error that was sent is received, or another one was before. -/
private theorem aborts_of_sent
    (hserved : ∀ moment, ∃ later, moment ≤ later ∧ schedule later = .supervisor false)
    {index first : Nat} {worker : Worker} {problem : Problem}
    (hworker : (start.reached schedule first).crew.workers[index]? = some worker)
    (hfailed : worker.outcome = some (.error problem))
    (hsent : (start.reached schedule first).sent[index]? = some true) :
    ∃ later, first ≤ later ∧ (start.reached schedule later).crew.context.aborted = true := by
  apply nearer schedule hstart hserved
  intro moment hmoment
  cases haborted : (start.reached schedule moment).crew.context.aborted with
  | true => exact .inl rfl
  | false =>
      obtain ⟨posted, h⟩ := reporting_reached schedule hstart moment
      have hover : worker.outcome.isSome := by rw [hfailed]; rfl
      have hat := over_keeps hover hmoment hworker
      obtain ⟨hlt, -⟩ := List.getElem?_eq_some_iff.mp hat
      -- the error is still on its way
      have hreport : (start.reached schedule moment).report index =
          some ⟨worker.role, .error problem⟩ := by
        simp [report, List.getD_eq_getElem?_getD, sent_keeps hmoment hsent, hat,
          hfailed]
      have hexit : (⟨worker.role, .error problem⟩ : Exit) ∈
          (start.reached schedule moment).exits :=
        List.mem_filterMap.mpr ⟨index, List.mem_range.mpr hlt, hreport⟩
      have hmailbox : (⟨worker.role, .error problem⟩ : Exit) ∈
          (start.reached schedule moment).mailbox := by
        rcases List.mem_append.mp (h.mail.reports.symm.subset hexit) with hheard | hmailbox
        · have hflag := h.flag
          rw [haborted, eq_comm, List.any_eq_false] at hflag
          exact absurd rfl (hflag _ hheard)
        · exact hmailbox
      refine .inr ⟨Bool.eq_false_iff.mpr fun hreturned => ?_, ?_⟩
      · obtain ⟨outcome, houtcome⟩ :=
          Option.isSome_iff_exists.mp ((isSome_outcome _).trans hreturned)
        rw [(h.returned houtcome).2.1] at hmailbox
        cases hmailbox
      · rintro ⟨notes, -, -, hempty⟩
        rw [hempty] at hmailbox
        cases hmailbox

end Reporting

include hcrew in
private theorem inStep_reached (moment : Nat)
    (hworking : (start.reached schedule moment).hasReturned = false) :
    ∃ tally, (start.reached schedule moment).crew.InStep config place tally := by
  induction moment with
  | zero => exact ⟨tally, hcrew⟩
  | succ moment ih =>
      rw [reached_succ] at hworking ⊢
      cases hbefore : (start.reached schedule moment).hasReturned with
      | true =>
          rw [returned_turn hbefore] at hworking
          cases hworking
      | false =>
          obtain ⟨before, hstep⟩ := ih hbefore
          exact inStep_turn hstep (schedule moment) hworking

include hstart hcrew hserves

/-- In an aborted run every worker returns. -/
private theorem over_of_aborted {first : Nat}
    (haborted : (start.reached schedule first).crew.context.aborted = true) {index : Nat}
    (hindex : index < config.stages + 1) : ∃ later worker, first ≤ later ∧
      (start.reached schedule later).crew.workers[index]? = some worker ∧
        worker.outcome.isSome := by
  have hat : ∀ moment, ∃ worker,
      (start.reached schedule moment).crew.workers[index]? = some worker := by
    intro moment
    rw [← length_reached schedule hstart moment] at hindex
    exact ⟨_, List.getElem?_eq_getElem hindex⟩
  choose course hcourse using hat
  have hnext : ∀ moment, course (moment + 1) =
      ((schedule moment).reading index).elim (course moment) fun now =>
        ((course moment).turn now (start.reached schedule moment).crew.context).2 := by
    intro moment
    have hafter := worker_turn (hcourse moment) (schedule moment)
    rw [← reached_succ, hcourse (moment + 1)] at hafter
    exact Option.some.inj hafter
  have hleft : ∀ moment now, first ≤ moment → (schedule moment).reading index = some now →
      (course moment).moves now (start.reached schedule moment).crew.context →
        (course (moment + 1)).left config.count < (course moment).left config.count := by
    intro moment now hmoment hturn hmoves
    have hmember := List.mem_of_getElem? (hcourse moment)
    cases hreturned : (start.reached schedule moment).hasReturned with
    | true =>
        -- once the supervisor has returned no worker is left
        obtain ⟨posted, h⟩ := reporting_reached schedule hstart moment
        obtain ⟨outcome, houtcome⟩ :=
          Option.isSome_iff_exists.mp ((isSome_outcome _).trans hreturned)
        have hover := List.all_eq_true.mp (h.returned houtcome).1 _ hmember
        simp [moves, hover] at hmoves
    | false =>
        obtain ⟨tally, hstep⟩ := inStep_reached schedule hcrew moment hreturned
        rw [hnext, hturn]
        exact (hstep.follows _ hmember).left_turn hstep.valid hstep.shows
          (reached_keeps (fun pipeline => pipeline.crew.context.aborted = true) aborted_turn
            hmoment haborted) hmoves
  have hserved : ∀ moment, ∃ later now, moment ≤ later ∧ (course moment).spinEnd ≤ now ∧
      (schedule later).reading index = some now := by
    intro moment
    have hturn := hserves.workers index hindex moment
    rwa [Crew.spinEnd, hcourse moment] at hturn
  obtain ⟨later, hlater, hover⟩ := over_of_turns hnext hleft hserved (Nat.le_refl first)
  exact ⟨later, course later, hlater, hcourse later, hover⟩

/-- And all of them report. -/
private theorem sent_of_aborted {first : Nat}
    (haborted : (start.reached schedule first).crew.context.aborted = true) {workers : Nat}
    (hworkers : workers ≤ config.stages + 1) : ∃ later, first ≤ later ∧
      ∀ index < workers, (start.reached schedule later).sent[index]? = some true := by
  induction workers with
  | zero => exact ⟨first, Nat.le_refl first, fun index hindex => absurd hindex (by omega)⟩
  | succ workers ih =>
      obtain ⟨moment, hmoment, hsent⟩ := ih (by omega)
      obtain ⟨between, worker, hbetween, hworker, hover⟩ :=
        over_of_aborted schedule hstart hcrew hserves haborted
          (show workers < config.stages + 1 by omega)
      obtain ⟨last, hlast, hreported⟩ :=
        sends_over schedule hstart hserves.turns hworker hover
      refine ⟨max moment last, by omega, fun index hindex => ?_⟩
      rcases Nat.lt_succ_iff_lt_or_eq.mp hindex with hearlier | rfl
      · exact sent_keeps (Nat.le_max_left _ _) (hsent index hearlier)
      · exact sent_keeps (Nat.le_max_right _ _) hreported

/-- When a worker has failed, the run comes to its end, and it has been asked to give up. -/
theorem returns_of_failed {moment : Nat}
    (hfailed : (start.reached schedule moment).crew.Failed) : ∃ later, moment ≤ later ∧
      (start.reached schedule later).hasReturned = true ∧
        (start.reached schedule later).crew.context.aborted = true := by
  obtain ⟨worker, hmember, problem, hproblem⟩ := hfailed
  obtain ⟨index, hworker⟩ := List.mem_iff_getElem?.mp hmember
  have hover : worker.outcome.isSome := by rw [hproblem]; rfl
  obtain ⟨sending, hsending, hsent⟩ := sends_over schedule hstart hserves.turns hworker hover
  obtain ⟨aborting, haborting, haborted⟩ :=
    aborts_of_sent schedule hstart hserves.supervisor
      (over_keeps hover hsending hworker) hproblem hsent
  obtain ⟨reporting, hreporting, hall⟩ :=
    sent_of_aborted schedule hstart hcrew hserves haborted (Nat.le_refl _)
  obtain ⟨last, hlast, hreturned⟩ := returns_of_sent schedule hstart hserves.supervisor hall
  refine ⟨last, by omega, hreturned, ?_⟩
  exact reached_keeps (fun pipeline => pipeline.crew.context.aborted = true) aborted_turn
    (Nat.le_trans hreporting hlast) haborted

end Endless

/-- The failure that a report announces is that of the problem it reports. -/
private theorem cause_of_failure {exit : Exit} {failure : Failure}
    (h : exit.failure = some failure) : ∃ problem, exit.outcome = .error problem ∧
      (Problem.IsAborted (.failed failure) ↔ problem.IsAborted) := by
  simp only [Exit.failure] at h
  split at h
  · cases h
  · rename_i problem hproblem
    cases h
    exact ⟨problem, hproblem, Iff.rfl⟩

private theorem unmasked_run {context : Run.Context} {config : Run.Config} {place : Storage.Place}
    (hfresh : context.Fresh config place) (pause : Role → Pause) (schedule : List Turn)
    (hcompletes : ((start context pause).run schedule).crew.Succeeded → ∀ outcome,
      ((start context pause).run schedule).outcome = some outcome →
        ∃ report, outcome = .ok report) :
    (start context pause).Unmasked config.stages schedule := by
  have hstart := start_reporting hfresh pause
  have hdown : (start context pause).crew.context.aborted = false :=
    (start_aborted context pause).trans hfresh.aborted
  have h := hstart.run schedule
  rw [List.nil_append, List.nil_append] at h
  have hcause : ∀ problem, ((start context pause).run schedule).outcome = some (.error problem) →
      ∃ exit failure, ((start context pause).heard schedule).find? Exit.isError = some exit ∧
        exit.failure = some failure ∧ problem = .failed failure := by
    intro problem houtcome
    cases hfirst : ((start context pause).heard schedule).findSome? Exit.failure with
    | none =>
        obtain ⟨report, hreport⟩ := hcompletes (h.succeeded houtcome hfirst) _ houtcome
        cases hreport
    | some failure =>
        obtain ⟨exit, hexit, hfailure⟩ := find?_of_failure hfirst
        have herror := (h.returned houtcome).2.2.2 failure hfirst
        cases herror
        exact ⟨exit, failure, hexit, hfailure, rfl⟩
  constructor
  case once => exact h.once
  case own =>
    intro exit hexit
    rw [h.order] at hexit
    exact h.mail.of_worker hexit
  case order => exact h.order
  case flag => exact h.flag
  case first => exact fun exit hexit => hstart.first hdown hexit
  case all =>
    intro outcome houtcome
    obtain ⟨hover, hempty, hroles, -⟩ := h.returned houtcome
    have horder := h.order
    rw [hempty, List.append_nil] at horder
    exact ⟨hover, horder, hroles⟩
  case error =>
    intro outcome houtcome
    constructor
    · rintro ⟨problem, rfl⟩
      obtain ⟨exit, failure, hexit, -⟩ := hcause problem houtcome
      exact ⟨exit, List.mem_of_find?_eq_some hexit, List.find?_some hexit⟩
    · rintro ⟨exit, hexit, hisError⟩
      have hsome : (((start context pause).heard schedule).findSome? Exit.failure).isSome := by
        rw [isSome_failure]
        exact List.any_eq_true.mpr ⟨exit, hexit, hisError⟩
      obtain ⟨failure, hfailure⟩ := Option.isSome_iff_exists.mp hsome
      exact ⟨_, (h.returned houtcome).2.2.2 failure hfailure⟩
  case cause =>
    intro problem houtcome
    obtain ⟨exit, failure, hexit, hfailure, hproblem⟩ := hcause problem houtcome
    exact ⟨exit, failure, hexit, Exit.told_of_failure hfailure, hproblem⟩
  case genuine =>
    rintro hhonest problem houtcome
    obtain ⟨exit, failure, hexit, hfailure, rfl⟩ := hcause problem houtcome
    obtain ⟨before, after, rfl, hearly, worker, hworker, -, hreported⟩ := hstart.first hdown hexit
    have hgenuine : ∀ worker ∈ (start context pause).crew.workers, worker.Genuine := by
      intro worker hmember
      have hown := hhonest worker hmember
      simp only [start, Crew.start, List.mem_map] at hmember
      obtain ⟨role, -, rfl⟩ := hmember
      apply start_genuine
      cases role <;> exact hown
    obtain ⟨reason, hreason, hsame⟩ := cause_of_failure hfailure
    rw [hreason] at hreported
    exact fun haborted =>
      (hstart.genuine hgenuine hearly worker hworker).outcome reason hreported (hsame.mp haborted)

/-- However workers fail, the supervisor returns the first error that it receives, from a worker
that failed before anyone was asked to give up, and it returns no other: not before all workers have
returned and reported, and then whenever it goes on having turns, as they do. -/
theorem first_error_returned {storage : Storage} {config : Run.Config} {context : Run.Context}
    (htree : storage.IsTree) (hcreate : Run.Context.create storage config = .ok context)
    (pause : Role → Pause) :
    (∀ schedule, Clocked (fun _ => none) 0 schedule →
      (start context pause).Unmasked config.stages schedule) ∧
      ∀ schedule, Serves (start context pause) schedule (config.stages + 1) →
        ∀ moment, ((start context pause).reached schedule moment).crew.Failed →
          ∃ later exit failure, moment ≤ later ∧
            ((start context pause).heard ((List.range later).map schedule)).find? Exit.isError =
              some exit ∧ exit.Told failure ∧
            ((start context pause).reached schedule later).outcome =
              some (.error (.failed failure)) := by
  obtain ⟨place, hfresh⟩ := Run.Context.create_fresh htree hcreate
  refine ⟨fun schedule hclock => ?_, fun schedule hserves moment hfailed => ?_⟩
  · apply unmasked_run hfresh
    intro hok outcome houtcome
    have hstands := (start_running hfresh pause).run hclock hok.never
    obtain ⟨report, hreport, -⟩ := hstands.returned houtcome
    exact ⟨report, hreport⟩
  · have hstart := start_reporting hfresh pause
    obtain ⟨later, hlater, hreturned, haborted⟩ := returns_of_failed schedule hstart
      (Crew.start_inStep hfresh pause) hserves hfailed
    obtain ⟨posted, h⟩ := reporting_reached schedule hstart later
    obtain ⟨outcome, houtcome⟩ := Option.isSome_iff_exists.mp ((isSome_outcome _).trans hreturned)
    rw [h.flag, ← isSome_failure] at haborted
    obtain ⟨failure, hfailure⟩ := Option.isSome_iff_exists.mp haborted
    obtain ⟨exit, hexit, htold⟩ := find?_of_failure hfailure
    refine ⟨later, exit, failure, hlater, hexit, Exit.told_of_failure htold, ?_⟩
    rw [houtcome, (h.returned houtcome).2.2.2 failure hfailure]

/-- Three workers and the supervisor, one after the other; nobody waits for the pretoucher. -/
def cycle (moment : Nat) : Turn :=
  if moment % 4 < 3 then .worker (moment % 4) (moment + 1) else .supervisor false

theorem cycle_serves (start : Pipeline) : Serves start cycle 3 := by
  constructor
  case workers =>
    intro index hindex moment
    generalize (start.reached cycle moment).crew.spinEnd index = time
    refine ⟨4 * (moment + time) + index, 4 * (moment + time) + index + 1, by omega, by omega, ?_⟩
    have hplace : (4 * (moment + time) + index) % 4 = index := by omega
    simp only [cycle, hplace, if_pos hindex, Turn.reading, if_true]
  case supervisor =>
    intro moment
    refine ⟨4 * moment + 3, by omega, ?_⟩
    have hplace : (4 * moment + 3) % 4 = 3 := by omega
    simp [cycle, hplace]

/-- The first stage breaks at its first pause, all others never give up. -/
def brittle : Role → Pause
  | .stage 1 => .scripted (fun _ => some (.broken (.raised (some "boom")))) 0
  | _ => .spinning

/-- Two records and two stages. The first stage breaks; the producer and the second stage are asked
to give up and fail too, but it is the first stage that the supervisor names. -/
theorem first_error_returned_two_stages : ∃ context,
    Run.Context.create .empty (.plain 2 2 "/out") = .ok context ∧
      let run := start context brittle
      let schedule := (List.range 60).map cycle
      run.Unmasked 2 schedule ∧
        (run.heard schedule).map (fun exit => (exit.role, exit.isError)) =
          [(.stage 1, true), (.producer, true), (.stage 2, true)] ∧
        (∃ failure, (run.run schedule).outcome = some (.error (.failed failure)) ∧
          failure.texts = ["relay-stage-1 failed", "panicked: boom"]) ∧
        ∃ later exit failure, 12 ≤ later ∧
          (run.heard ((List.range later).map cycle)).find? Exit.isError = some exit ∧
          exit.Told failure ∧
            (run.reached cycle later).outcome = some (.error (.failed failure)) := by
  have hshown : (Run.Context.create .empty (.plain 2 2 "/out")).toOption.map (fun context =>
      let run := start context brittle
      let schedule := (List.range 60).map cycle
      ((run.heard schedule).map (fun exit => (exit.role, exit.isError)),
        (run.run schedule).outcome.map fun outcome =>
          (outcome.map fun _ => ()).mapError fun problem => problem.reported.texts,
        (run.reached cycle 12).crew.workers.any fun worker =>
          worker.outcome.any fun outcome => outcome.toOption.isNone)) =
      some ([(.stage 1, true), (.producer, true), (.stage 2, true)],
        some (.error ["relay-stage-1 failed", "panicked: boom"]), true) := by
    decide +kernel
  cases hcreate : Run.Context.create .empty (.plain 2 2 "/out") with
  | error problem => simp [hcreate, Except.toOption] at hshown
  | ok context =>
      simp only [hcreate, Except.toOption, Option.map_some, Option.some.injEq,
        Prod.mk.injEq] at hshown
      obtain ⟨hheard, htexts, hfailing⟩ := hshown
      obtain ⟨hunmasked, hreturns⟩ := first_error_returned Storage.empty_isTree hcreate brittle
      have hrun := hunmasked ((List.range 60).map cycle)
        (.of_forward (by decide +kernel) (by decide +kernel) _)
      refine ⟨context, rfl, hrun, hheard, ?_, hreturns cycle (cycle_serves _) 12 ?_⟩
      · obtain ⟨outcome, houtcome, htold⟩ := Option.map_eq_some_iff.mp htexts
        cases outcome with
        | ok report => cases htold
        | error problem =>
            obtain ⟨-, failure, -, -, rfl⟩ := hrun.cause problem houtcome
            exact ⟨failure, houtcome, Except.error.inj htold⟩
      · obtain ⟨worker, hworker, hany⟩ := List.any_eq_true.mp hfailing
        obtain ⟨outcome, houtcome, hnone⟩ := (Option.any_eq_true _ _).mp hany
        cases outcome with
        | ok deed => cases hnone
        | error problem => exact ⟨worker, hworker, problem, houtcome⟩

end GatedPipeline.Pipeline
