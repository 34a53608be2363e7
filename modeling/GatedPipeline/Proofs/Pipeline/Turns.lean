import GatedPipeline.Pipeline

/-!
What a turn leaves alone. Only the turn of a worker that is not over changes that worker, a worker
that is over stays as it is for the rest of the run, and a report that was sent stays sent.
-/

namespace GatedPipeline

namespace Crew

theorem step_length (crew : Crew) (index now : Nat) :
    (crew.step (.work index now)).workers.length = crew.workers.length := by
  simp only [step]
  split
  · rfl
  · simp

theorem step_others (crew : Crew) {index other : Nat} (now : Nat) (hother : other ≠ index) :
    (crew.step (.work index now)).workers[other]? = crew.workers[other]? := by
  simp only [step]
  split
  · rfl
  · exact List.getElem?_set_ne hother.symm

end Crew

namespace Pipeline

variable {pipeline : Pipeline} {index : Nat} {worker : Worker}

/-! ### The turns of workers -/

theorem idle_or_over (pipeline : Pipeline) (index : Nat) :
    (∀ worker, pipeline.crew.workers[index]? = some worker → worker.outcome = none) ∨
      ∃ worker outcome, pipeline.crew.workers[index]? = some worker ∧
        worker.outcome = some outcome := by
  cases hworker : pipeline.crew.workers[index]? with
  | none => exact .inl fun worker h => by cases h
  | some worker =>
      cases houtcome : worker.outcome with
      | none =>
          refine .inl fun other hother => ?_
          cases hother
          exact houtcome
      | some outcome => exact .inr ⟨worker, outcome, rfl, houtcome⟩

/-- A worker that is not over works. -/
theorem work_idle (now : Nat)
    (hidle : ∀ worker, pipeline.crew.workers[index]? = some worker → worker.outcome = none) :
    pipeline.work index now = { pipeline with crew := pipeline.crew.step (.work index now) } := by
  have hnone : (pipeline.crew.workers[index]?).bind (fun worker =>
      worker.outcome.map fun outcome => (worker.role, outcome)) = none := by
    cases hworker : pipeline.crew.workers[index]? with
    | none => rfl
    | some worker => simp [hidle worker hworker]
  simp only [work, hnone]

/-- A worker that is over sends its report, once. -/
theorem work_over (now : Nat) {outcome : Except Problem Worker.Deed}
    (hworker : pipeline.crew.workers[index]? = some worker)
    (houtcome : worker.outcome = some outcome) :
    pipeline.work index now =
      if pipeline.sent.getD index true then pipeline
      else { pipeline with
        sent := pipeline.sent.set index true
        mailbox := pipeline.mailbox ++ [⟨worker.role, outcome⟩] } := by
  simp only [work, hworker, Option.bind_some, houtcome, Option.map_some]

theorem work_none (now : Nat) (hnone : pipeline.crew.workers[index]? = none) :
    pipeline.work index now = pipeline := by
  rw [work_idle now fun worker hworker => by rw [hnone] at hworker; cases hworker]
  simp only [Crew.step, hnone]

theorem work_supervisor (pipeline : Pipeline) (index now : Nat) :
    (pipeline.work index now).supervisor = pipeline.supervisor := by
  rcases pipeline.idle_or_over index with hidle | ⟨worker, outcome, hworker, houtcome⟩
  · rw [work_idle now hidle]
  · rw [work_over now hworker houtcome]
    split <;> rfl

/-! ### The turns of the pretoucher -/

/-- The pretoucher touches some pages more. The rest of the run does not matter to it. -/
theorem pretouch_running {pages : Nat} {log : Log} {touched : List Nat}
    (hrunning : pipeline.pretoucher = .running pages)
    (hpretouch : pipeline.crew.context.log.pretouch = .ok (log, touched)) :
    pipeline.pretouch = { pipeline with
      crew := { pipeline.crew with context := { pipeline.crew.context with log := log } }
      pretoucher := .running (pages + touched.length) } := by
  -- how pages are touched must stay closed, or the stride is computed in unary
  obtain ⟨touch, htouch⟩ : ∃ touch, touch = Log.pretouch := ⟨_, rfl⟩
  unfold pretouch
  rw [← htouch] at hpretouch ⊢
  obtain ⟨⟨context, workers⟩, sent, mailbox, pretoucher, supervisor⟩ := pipeline
  cases hrunning
  simp only at hpretouch
  simp only [Run.Context.onLog, hpretouch]

/-- The pretoucher stops. If the supervisor has returned, it is the last to hold the run. -/
theorem pretouch_stopping {pages : Nat} (hstopping : pipeline.pretoucher = .stopping pages) :
    pipeline.pretouch = { pipeline with
      crew := { pipeline.crew with
        context := if pipeline.hasReturned then release pipeline.crew.context false
          else pipeline.crew.context }
      pretoucher := .stopped pages } := by
  obtain ⟨touch, htouch⟩ : ∃ touch, touch = Log.pretouch := ⟨_, rfl⟩
  unfold pretouch
  rw [← htouch]
  obtain ⟨⟨context, workers⟩, sent, mailbox, pretoucher, supervisor⟩ := pipeline
  cases hstopping
  rfl

theorem pretouch_over (hover : pipeline.pretoucher.holdsRun = false) :
    pipeline.pretouch = pipeline := by
  obtain ⟨touch, htouch⟩ : ∃ touch, touch = Log.pretouch := ⟨_, rfl⟩
  unfold pretouch
  rw [← htouch]
  obtain ⟨⟨context, workers⟩, sent, mailbox, pretoucher, supervisor⟩ := pipeline
  cases pretoucher with
  | running pages => cases hover
  | stopping pages => cases hover
  | stopped pages => rfl
  | broken => rfl

/-- What a turn of the pretoucher can be: pages are touched, if any, or it gives the run up. If the
supervisor has returned, it is the last to hold it. -/
theorem pretouch_cases (pipeline : Pipeline) : ∃ log pretoucher,
    pipeline.pretouch = { pipeline with
        crew := { pipeline.crew with context := { pipeline.crew.context with log := log } }
        pretoucher := pretoucher } ∧ pretoucher.holdsRun = pipeline.pretoucher.holdsRun ∨
      pipeline.pretouch = { pipeline with
          crew := { pipeline.crew with
            context := if pipeline.hasReturned
              then release { pipeline.crew.context with log := log } false
              else { pipeline.crew.context with log := log } }
          pretoucher := pretoucher } ∧
        pipeline.pretoucher.holdsRun = true ∧ pretoucher.holdsRun = false := by
  cases hpretoucher : pipeline.pretoucher with
  | running pages =>
      obtain ⟨touch, htouch⟩ : ∃ touch, touch = Log.pretouch := ⟨_, rfl⟩
      unfold pretouch
      rw [← htouch]
      obtain ⟨⟨context, workers⟩, sent, mailbox, pretoucher, supervisor⟩ := pipeline
      cases hpretoucher
      simp only [Run.Context.onLog]
      cases touch context.log with
      | ok touched => exact ⟨touched.1, _, .inl ⟨rfl, rfl⟩⟩
      | error fault => exact ⟨context.log, _, .inr ⟨rfl, rfl, rfl⟩⟩
  | stopping pages =>
      exact ⟨_, _, .inr ⟨pretouch_stopping hpretoucher, rfl, rfl⟩⟩
  | stopped pages | broken =>
      have hsame : pipeline.pretouch = pipeline := pretouch_over (by rw [hpretoucher]; rfl)
      exact ⟨_, pipeline.pretoucher, .inl ⟨hsame, congrArg _ hpretoucher⟩⟩

theorem pretouch_others (pipeline : Pipeline) :
    pipeline.pretouch.crew.workers = pipeline.crew.workers ∧
      pipeline.pretouch.sent = pipeline.sent ∧ pipeline.pretouch.mailbox = pipeline.mailbox ∧
        pipeline.pretouch.supervisor = pipeline.supervisor := by
  obtain ⟨log, pretoucher, ⟨hturn, -⟩ | ⟨hturn, -⟩⟩ := pipeline.pretouch_cases <;>
    rw [hturn] <;> exact ⟨rfl, rfl, rfl, rfl⟩

/-! ### The turns of the supervisor -/

/-- What the supervisor does to the crew: it asks it to give up, or concludes the run. -/
theorem supervise_crew (pipeline : Pipeline) (patient : Bool) :
    (pipeline.supervise patient).crew = pipeline.crew ∨
      (pipeline.supervise patient).crew =
        { pipeline.crew with context := pipeline.crew.context.abort } ∨
      ∃ notes, pipeline.supervisor = .conclude notes ∧ (pipeline.supervise patient).crew =
        { pipeline.crew with
          context := (conclude pipeline.crew.context pipeline.pretoucher.holdsRun notes).1 } := by
  obtain ⟨⟨context, workers⟩, sent, mailbox, pretoucher, supervisor⟩ := pipeline
  cases supervisor with
  | receive notes =>
      simp only [supervise]
      split
      · exact .inl rfl
      · split
        · exact .inl rfl
        · rename_i exit rest
          cases notes.isFirstError exit <;> split <;> simp
  | conclude notes => exact .inr (.inr ⟨notes, rfl, rfl⟩)
  | awaitPretoucher notes | windDown notes | returned outcome => exact .inl rfl

theorem supervise_workers (pipeline : Pipeline) (patient : Bool) :
    (pipeline.supervise patient).crew.workers = pipeline.crew.workers := by
  rcases pipeline.supervise_crew patient with hcrew | hcrew | ⟨notes, -, hcrew⟩ <;> rw [hcrew]

theorem supervise_sent (pipeline : Pipeline) (patient : Bool) :
    (pipeline.supervise patient).sent = pipeline.sent := by
  obtain ⟨⟨context, workers⟩, sent, mailbox, pretoucher, supervisor⟩ := pipeline
  cases supervisor with
  | receive notes =>
      simp only [supervise]
      repeat' split
      all_goals rfl
  | _ => rfl

/-! ### All turns -/

/-- A worker that is over stays as it is. -/
theorem over_turn (hworker : pipeline.crew.workers[index]? = some worker)
    (hover : worker.outcome.isSome) (turn : Turn) :
    (pipeline.turn turn).crew.workers[index]? = some worker := by
  cases turn with
  | pretoucher => exact (congrArg (·[index]?) (pretouch_others pipeline).1).trans hworker
  | supervisor patient =>
      exact (congrArg (·[index]?) (pipeline.supervise_workers patient)).trans hworker
  | worker second now =>
      change (pipeline.work second now).crew.workers[index]? = some worker
      rcases pipeline.idle_or_over second with hidle | ⟨other, outcome, hother, houtcome⟩
      · rw [work_idle now hidle]
        have hother : index ≠ second := by
          intro hsame
          rw [hidle worker (hsame ▸ hworker)] at hover
          cases hover
        exact (pipeline.crew.step_others now hother).trans hworker
      · rw [work_over now hother houtcome]
        split <;> exact hworker

/-- Only the supervisor's own turns move it. -/
theorem supervisor_turn (pipeline : Pipeline) (turn : Turn) :
    (∃ patient, turn = .supervisor patient) ∨
      (pipeline.turn turn).supervisor = pipeline.supervisor := by
  cases turn with
  | worker index now => exact .inr (work_supervisor pipeline index now)
  | pretoucher => exact .inr (pretouch_others pipeline).2.2.2
  | supervisor patient => exact .inl ⟨patient, rfl⟩

/-- What the supervisor has returned stays. -/
theorem outcome_turn {outcome : Except Problem Run.Report} (h : pipeline.outcome = some outcome)
    (turn : Turn) : (pipeline.turn turn).outcome = some outcome := by
  rcases pipeline.supervisor_turn turn with ⟨patient, rfl⟩ | hsame
  · obtain ⟨⟨context, workers⟩, sent, mailbox, pretoucher, supervisor⟩ := pipeline
    cases supervisor with
    | returned result => exact h
    | _ => cases h
  · rw [Pipeline.outcome, hsame]
    exact h

theorem isSome_outcome (pipeline : Pipeline) : pipeline.outcome.isSome = pipeline.hasReturned := by
  cases hduty : pipeline.supervisor <;> simp [Pipeline.outcome, hasReturned, hduty]

theorem returned_turn (h : pipeline.hasReturned = true) (turn : Turn) :
    (pipeline.turn turn).hasReturned = true := by
  rw [← isSome_outcome] at h ⊢
  obtain ⟨outcome, houtcome⟩ := Option.isSome_iff_exists.mp h
  rw [outcome_turn houtcome turn]
  rfl

/-- A turn marks the report of one worker as sent, at most. -/
theorem sent_turn (pipeline : Pipeline) (turn : Turn) :
    (pipeline.turn turn).sent = pipeline.sent ∨
      ∃ index, (pipeline.turn turn).sent = pipeline.sent.set index true := by
  cases turn with
  | pretoucher => exact .inl (pretouch_others pipeline).2.1
  | supervisor patient => exact .inl (pipeline.supervise_sent patient)
  | worker index now =>
      change (pipeline.work index now).sent = _ ∨ ∃ other, (pipeline.work index now).sent = _
      rcases pipeline.idle_or_over index with hidle | ⟨worker, outcome, hworker, houtcome⟩
      · rw [work_idle now hidle]
        exact .inl rfl
      · rw [work_over now hworker houtcome]
        split
        · exact .inl rfl
        · exact .inr ⟨index, rfl⟩

/-! ### Whole runs -/

theorem over_run (hworker : pipeline.crew.workers[index]? = some worker)
    (hover : worker.outcome.isSome) (schedule : List Turn) :
    (pipeline.run schedule).crew.workers[index]? = some worker := by
  induction schedule generalizing pipeline with
  | nil => exact hworker
  | cons turn rest ih => exact ih (over_turn hworker hover turn)

theorem sent_run (hsent : pipeline.sent[index]? = some true) (schedule : List Turn) :
    (pipeline.run schedule).sent[index]? = some true := by
  induction schedule generalizing pipeline with
  | nil => exact hsent
  | cons turn rest ih =>
      apply ih
      rcases sent_turn pipeline turn with hsame | ⟨other, hset⟩
      · rw [hsame]
        exact hsent
      · rw [hset, List.getElem?_set]
        split
        · obtain ⟨hlt, -⟩ := List.getElem?_eq_some_iff.mp hsent
          rename_i hindex
          rw [if_pos (hindex ▸ hlt)]
        · exact hsent

/-- A worker that is over sends its report when it has its turn. -/
theorem sends (hworker : pipeline.crew.workers[index]? = some worker)
    (hover : worker.outcome.isSome) (hslot : index < pipeline.sent.length) {now : Nat}
    {schedule : List Turn} (hturn : .worker index now ∈ schedule) :
    (pipeline.run schedule).sent[index]? = some true := by
  induction schedule generalizing pipeline with
  | nil => cases hturn
  | cons turn rest ih =>
      rcases List.mem_cons.mp hturn with rfl | hlater
      · obtain ⟨outcome, houtcome⟩ := Option.isSome_iff_exists.mp hover
        have hmarked : (pipeline.work index now).sent[index]? = some true := by
          rw [work_over now hworker houtcome]
          split
          · rename_i hsent
            rwa [List.getD_eq_getElem?_getD, List.getElem?_eq_getElem hslot, Option.getD_some,
              ← Option.some_inj, ← List.getElem?_eq_getElem] at hsent
          · exact List.getElem?_set_self hslot
        exact sent_run hmarked rest
      · refine ih (over_turn hworker hover turn) ?_ hlater
        rcases sent_turn pipeline turn with hsame | ⟨other, hset⟩
        · rw [hsame]
          exact hslot
        · rw [hset, List.length_set]
          exact hslot

end Pipeline

end GatedPipeline
