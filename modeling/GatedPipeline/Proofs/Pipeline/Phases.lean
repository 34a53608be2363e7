import GatedPipeline.Proofs.Pipeline.Ending

/-!
What every turn of a run keeps, as long as no worker has failed: until the supervisor returns, no
report is lost and the notes are those of workers that are over, and once it has returned, nothing
takes back what the run has come to.
-/

namespace GatedPipeline

namespace Pipeline

open Worker

/-- Before the supervisor has returned: the crew is in step with a tally, only workers that are over
have reported, and the reports are in the notes or on their way. -/
structure Running (pipeline : Pipeline) (config : Run.Config) (place : Storage.Place)
    (tally : Tally) (held : Nat → Option Nat) (latest : Nat) (heard : List Exit) : Prop where
  crew : pipeline.crew.InStep config place tally
  punctual : pipeline.crew.Punctual (.signed config) tally held latest
  slots : pipeline.sent.length = pipeline.crew.workers.length
  reported : ∀ index : Nat, pipeline.sent[index]? = some true →
    ∃ worker, pipeline.crew.workers[index]? = some worker ∧ worker.outcome.isSome
  reports : (heard ++ pipeline.mailbox).Perm pipeline.exits
  supervisor : pipeline.supervisor.Told pipeline.crew.workers.length heard

/-- A run whose supervisor has returned a complete report. -/
structure Concluded (pipeline : Pipeline) (config : Run.Config) (tally : Tally) : Prop where
  settled : pipeline.crew.Settled config tally
  returned : ∃ report, pipeline.supervisor = .returned (.ok report) ∧ report.Complete config

section Running

variable {pipeline : Pipeline} {config : Run.Config} {place : Storage.Place} {tally : Tally}
  {held : Nat → Option Nat} {latest : Nat} {heard : List Exit}
  (h : pipeline.Running config place tally held latest heard)

include h

theorem Running.not_returned (outcome : Except Problem Run.Report) :
    pipeline.supervisor ≠ .returned outcome := by
  intro hduty
  have htold := h.supervisor
  rw [hduty] at htold
  cases htold

theorem Running.mail : pipeline.Mail heard := ⟨h.slots, h.reported, h.reports⟩

/-- A turn of a worker that is not over, with the reading that it holds. -/
private theorem Running.works {index now : Nat} (hheld : held index = some now)
    (hidle : ∀ worker, pipeline.crew.workers[index]? = some worker → worker.outcome = none) :
    Running (pipeline.work index now) config place (pipeline.crew.next tally (.work index now))
      (Crew.hold held index none) latest heard := by
  have hmail := h.mail.works now hidle
  rw [work_idle now hidle] at hmail ⊢
  refine ⟨h.crew.step (.work index now), h.punctual.step h.crew hheld, hmail.slots, hmail.reported,
    hmail.reports, ?_⟩
  simp only [pipeline.crew.step_length index now]
  exact h.supervisor

/-- A turn of a worker that is over. -/
private theorem Running.tells {index : Nat} (now : Nat) {worker : Worker}
    {outcome : Except Problem Deed} (hworker : pipeline.crew.workers[index]? = some worker)
    (houtcome : worker.outcome = some outcome) :
    Running (pipeline.work index now) config place tally held latest heard := by
  have hmail := h.mail.tells now hworker houtcome
  rw [work_over now hworker houtcome] at hmail ⊢
  split
  · exact h
  · rename_i hunsent
    rw [if_neg hunsent] at hmail
    exact ⟨h.crew, h.punctual, hmail.slots, hmail.reported, hmail.reports, h.supervisor⟩

/-- Without a failure, all reports tell what a worker has done. -/
private theorem Running.told (hnever : ¬ pipeline.crew.Failed) {exit : Exit}
    (hexit : exit ∈ heard ++ pipeline.mailbox) : ∃ deed, exit.outcome = .ok deed := by
  obtain ⟨worker, hworker, -, houtcome⟩ := h.mail.of_worker hexit
  cases hresult : exit.outcome with
  | ok deed => exact ⟨deed, rfl⟩
  | error problem => exact absurd ⟨worker, hworker, problem, hresult ▸ houtcome⟩ hnever

/-- The supervisor, the pretoucher and the mailbox move on. -/
private theorem Running.advance {more : List Exit} {mailbox : List Exit} {pretoucher : Pretoucher}
    {supervisor : Duty} (hreports : more ++ mailbox = heard ++ pipeline.mailbox)
    (htold : supervisor.Told pipeline.crew.workers.length more) :
    Running ⟨pipeline.crew, pipeline.sent, mailbox, pretoucher, supervisor⟩ config place tally
      held latest more :=
  ⟨h.crew, h.punctual, h.slots, h.reported, hreports ▸ h.reports, htold⟩

private theorem Running.concludes {notes : Notes} (hnever : ¬ pipeline.crew.Failed) (patient : Bool)
    (hduty : pipeline.supervisor = .conclude notes) :
    (pipeline.supervise patient).Concluded config tally := by
  have htold := h.supervisor
  rw [hduty] at htold
  obtain ⟨hperm, hall⟩ := h.mail.all_reported htold.2
  have hsettled := h.crew.settled h.punctual fun worker hworker => by
    obtain ⟨index, hat⟩ := List.mem_iff_getElem?.mp hworker
    obtain ⟨hlt, -⟩ := List.getElem?_eq_some_iff.mp hat
    have hreport := hall index hlt
    rw [report] at hreport
    split at hreport
    · rw [hat, Option.bind_some, Option.isSome_map] at hreport
      obtain ⟨outcome, houtcome⟩ := Option.isSome_iff_exists.mp hreport
      cases outcome with
      | ok deed => exact ⟨deed, houtcome⟩
      | error problem => exact absurd ⟨worker, hworker, problem, houtcome⟩ hnever
    · cases hreport
  obtain ⟨after, report, hconclude, hcomplete, hafter⟩ :=
    conclude_ok h.crew.shows hsettled hall htold.1 hperm pipeline.pretoucher.holdsRun
  obtain ⟨⟨context, workers⟩, sent, mailbox, pretoucher, supervisor⟩ := pipeline
  cases hduty
  simp only [supervise, hconclude]
  exact ⟨hafter, report, rfl, hcomplete⟩

/-- Receiving. A report that is received leaves the mailbox for the notes. -/
private theorem Running.receives {notes : Notes} (hnever : ¬ pipeline.crew.Failed) (patient : Bool)
    (hduty : pipeline.supervisor = .receive notes) :
    ∃ more, (pipeline.supervise patient).Running config place tally held latest more := by
  have htold := h.supervisor
  rw [hduty] at htold
  have hreceived := htold.received
  obtain ⟨⟨context, workers⟩, sent, mailbox, pretoucher, supervisor⟩ := pipeline
  cases hduty
  simp only [Pipeline.supervise]
  split
  · rename_i hall
    refine ⟨heard, h.advance rfl ?_⟩
    have hlength : heard.length = workers.length := hreceived.symm.trans hall
    split <;> exact ⟨htold, hlength⟩
  · cases mailbox with
    | nil => exact ⟨heard, h⟩
    | cons exit rest =>
        have hlisted : exit ∈ heard ++ exit :: rest := by simp
        obtain ⟨deed, hdeed⟩ := h.told hnever hlisted
        have hmore := htold.receive ⟨deed, hdeed⟩
        have hfirst : notes.isFirstError exit = false := by
          simp only [Notes.isFirstError, hdeed]
        have hreports : (heard ++ [exit]) ++ rest = heard ++ exit :: rest := by simp
        -- no error, so the run is not asked to give up
        simp only [hfirst]
        split
        · refine ⟨heard ++ [exit], h.advance hreports ?_⟩
          exact ⟨hmore.received, hmore.error, hmore.producer, hmore.stages⟩
        · exact ⟨heard ++ [exit], h.advance hreports hmore⟩

theorem Running.supervise (hnever : ¬ pipeline.crew.Failed) (patient : Bool) :
    (∃ more, (pipeline.supervise patient).Running config place tally held latest more) ∨
      (pipeline.supervise patient).Concluded config tally := by
  have htold := h.supervisor
  cases hduty : pipeline.supervisor with
  | receive notes => exact .inl (h.receives hnever patient hduty)
  | conclude notes => exact .inr (h.concludes hnever patient hduty)
  | returned outcome => exact absurd hduty (h.not_returned outcome)
  | awaitPretoucher notes =>
      refine .inl ⟨heard, ?_⟩
      rw [hduty] at htold
      obtain ⟨⟨context, workers⟩, sent, mailbox, pretoucher, supervisor⟩ := pipeline
      cases hduty
      simp only [Pipeline.supervise]
      apply h.advance rfl
      split
      · exact htold
      · exact ⟨htold.received, htold.error, htold.producer, htold.stages⟩
  | windDown notes =>
      refine .inl ⟨heard, ?_⟩
      rw [hduty] at htold
      obtain ⟨⟨context, workers⟩, sent, mailbox, pretoucher, supervisor⟩ := pipeline
      cases hduty
      simp only [Pipeline.supervise]
      apply h.advance rfl
      split
      · exact htold
      · obtain ⟨hnotes, hall⟩ := htold
        exact ⟨⟨hnotes.received, hnotes.error, hnotes.producer, hnotes.stages⟩, hall⟩

theorem Running.pretouch : pipeline.pretouch.Running config place tally held latest heard := by
  cases hpretoucher : pipeline.pretoucher with
  | running pages =>
      obtain ⟨log, touched, hpretouch, hlayout, hcapacity, hlog⟩ := h.crew.shows.log.pretouch
      rw [pretouch_running hpretoucher hpretouch]
      refine ⟨⟨h.crew.count, h.crew.layout, ?_, h.crew.valid, h.crew.follows, h.crew.roles⟩,
        h.punctual.move _, h.slots, h.reported, h.reports, h.supervisor⟩
      exact h.crew.shows.relog hlayout hcapacity hlog
  | stopping pages =>
      have hreturned : pipeline.hasReturned = false := by
        simp only [hasReturned]
        split
        · rename_i outcome hduty
          exact absurd hduty (h.not_returned outcome)
        · rfl
      rw [pretouch_stopping hpretoucher, hreturned]
      exact h.advance rfl h.supervisor
  | stopped pages => exact (pretouch_over (by rw [hpretoucher]; rfl)).symm ▸ h
  | broken => exact (pretouch_over (by rw [hpretoucher]; rfl)).symm ▸ h

theorem Running.read (index : Nat) {now : Nat} (hlate : latest ≤ now) (hpositive : 0 < now)
    (hsmall : (now : Int) < signedLimit) :
    pipeline.Running config place tally (Crew.hold held index (some now)) now heard :=
  ⟨h.crew, h.punctual.read index hlate ⟨hpositive, hsmall⟩, h.slots, h.reported, h.reports,
    h.supervisor⟩

private theorem Running.drop (index : Nat) :
    pipeline.Running config place tally (Crew.hold held index none) latest heard :=
  ⟨h.crew, h.punctual.drop index, h.slots, h.reported, h.reports, h.supervisor⟩

theorem Running.work {index now : Nat} (hheld : held index = some now) :
    ∃ after, Running (pipeline.work index now) config place after (Crew.hold held index none) latest
      heard := by
  rcases pipeline.idle_or_over index with hidle | ⟨worker, outcome, hworker, houtcome⟩
  · exact ⟨_, h.works hheld hidle⟩
  · exact ⟨_, (h.tells now hworker houtcome).drop index⟩

/-- A turn of any kind, when all workers are over. The clock no longer matters. -/
theorem Running.turn_over (hok : pipeline.crew.Succeeded) (turn : Turn) :
    (∃ more, (pipeline.turn turn).Running config place tally held latest more) ∨
      (pipeline.turn turn).Concluded config tally := by
  cases turn with
  | pretoucher => exact .inl ⟨heard, h.pretouch⟩
  | supervisor patient => exact h.supervise hok.never patient
  | worker index now =>
      refine .inl ⟨heard, ?_⟩
      change Running (pipeline.work index now) config place tally held latest heard
      cases hworker : pipeline.crew.workers[index]? with
      | none =>
          rw [work_none now hworker]
          exact h
      | some worker =>
          obtain ⟨deed, houtcome⟩ := hok worker (List.mem_of_getElem? hworker)
          exact h.tells now hworker houtcome

end Running

section Concluded

variable {pipeline : Pipeline} {config : Run.Config} {tally : Tally}
  (h : pipeline.Concluded config tally)

include h

/-- After the end the log is still touched, and the run's directory may be removed once more. -/
private theorem Concluded.pretouch : pipeline.pretouch.Concluded config tally := by
  refine ⟨?_, (pretouch_others pipeline).2.2.2.symm ▸ h.returned⟩
  cases hpretoucher : pipeline.pretoucher with
  | running pages =>
      obtain ⟨log, touched, hpretouch, hlayout, -, hlog⟩ := h.settled.log.pretouch
      rw [pretouch_running hpretoucher hpretouch]
      exact h.settled.move (hlayout.trans h.settled.layout) hlog rfl rfl
  | stopping pages =>
      rw [pretouch_stopping hpretoucher]
      dsimp only
      split
      · exact h.settled.move h.settled.layout h.settled.log rfl pipeline.crew.context.drop_cells
      · exact h.settled
  | stopped pages => exact (pretouch_over (by rw [hpretoucher]; rfl)).symm ▸ h.settled
  | broken => exact (pretouch_over (by rw [hpretoucher]; rfl)).symm ▸ h.settled

/-- Nothing that happens after the end changes it. -/
theorem Concluded.turn (turn : Turn) : (pipeline.turn turn).Concluded config tally := by
  obtain ⟨report, hreturned, hcomplete⟩ := h.returned
  cases turn with
  | pretoucher => exact h.pretouch
  | supervisor patient =>
      obtain ⟨⟨context, workers⟩, sent, mailbox, pretoucher, supervisor⟩ := pipeline
      cases hreturned
      exact h
  | worker index now =>
      change Concluded (pipeline.work index now) config tally
      cases hworker : pipeline.crew.workers[index]? with
      | none =>
          rw [work_none now hworker]
          exact h
      | some worker =>
          obtain ⟨deed, houtcome⟩ := h.settled.succeeded worker (List.mem_of_getElem? hworker)
          rw [work_over now hworker houtcome]
          split
          · exact h
          · exact ⟨h.settled, h.returned⟩

theorem Concluded.outcome :
    ∃ report, pipeline.outcome = some (.ok report) ∧ report.Complete config := by
  obtain ⟨report, hreturned, hcomplete⟩ := h.returned
  exact ⟨report, by rw [Pipeline.outcome, hreturned], hcomplete⟩

theorem Concluded.run (schedule : List Turn) : (pipeline.run schedule).Concluded config tally := by
  induction schedule generalizing pipeline with
  | nil => exact h
  | cons turn rest ih => exact ih (h.turn turn)

end Concluded

end Pipeline

end GatedPipeline
