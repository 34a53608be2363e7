import Mathlib.Data.List.Basic
import GatedPipeline.Proofs.Pipeline.Turns

/-!
Reports on their way. Every worker that is over sends one report, the mailbox holds those not yet
received, and the supervisor's notes say what it has received, in whatever order that was.
-/

namespace GatedPipeline.Pipeline

open Worker

/-- The report of a worker, once it has sent it. -/
def report (pipeline : Pipeline) (index : Nat) : Option Exit :=
  if pipeline.sent.getD index false then
    (pipeline.crew.workers[index]?).bind fun worker => worker.outcome.map (Exit.mk worker.role)
  else none

/-- The reports sent so far, in the order of the workers. -/
def exits (pipeline : Pipeline) : List Exit :=
  (List.range pipeline.crew.workers.length).filterMap pipeline.report

def Exit.produced (exit : Exit) : Option Producer.Stats :=
  match exit.outcome with
  | .ok (.produced stats) => some stats
  | _ => none

def Exit.staged (exit : Exit) : Option Stage.Stats :=
  match exit.outcome with
  | .ok (.staged stats) => some stats
  | _ => none

/-- One report more among those of so many workers. -/
theorem filterMap_gain {α : Type} {before after : Nat → Option α} {workers index : Nat} {one : α}
    (hindex : index < workers) (hnone : before index = none) (hsome : after index = some one)
    (hothers : ∀ other, other ≠ index → after other = before other) :
    ((List.range workers).filterMap after).Perm
      ((List.range workers).filterMap before ++ [one]) := by
  induction workers with
  | zero => omega
  | succ workers ih =>
      rw [List.range_succ, List.filterMap_append, List.filterMap_append]
      by_cases hlast : index = workers
      · subst hlast
        have hsame : (List.range index).filterMap after = (List.range index).filterMap before :=
          List.filterMap_congr fun other hother =>
            hothers other (Nat.ne_of_lt (List.mem_range.mp hother))
        simp [hsame, hnone, hsome]
      · have hrest := ih (by omega)
        have hlastSame : [workers].filterMap after = [workers].filterMap before := by
          simp [List.filterMap_cons, hothers workers (Ne.symm hlast)]
        rw [hlastSame]
        apply (hrest.append_right _).trans
        rw [List.append_assoc, List.append_assoc]
        exact List.perm_append_comm.append_left _

/-- No report is lost: only workers that are over have reported, and their reports are with the
supervisor or on their way to it. -/
structure Mail (pipeline : Pipeline) (heard : List Exit) : Prop where
  slots : pipeline.sent.length = pipeline.crew.workers.length
  reported : ∀ index : Nat, pipeline.sent[index]? = some true →
    ∃ worker, pipeline.crew.workers[index]? = some worker ∧ worker.outcome.isSome
  reports : (heard ++ pipeline.mailbox).Perm pipeline.exits

section Mail

variable {pipeline : Pipeline} {heard : List Exit} (h : pipeline.Mail heard)

include h

/-- A turn of a worker that is not over. -/
theorem Mail.works {index : Nat} (now : Nat)
    (hidle : ∀ worker, pipeline.crew.workers[index]? = some worker → worker.outcome = none) :
    Mail (pipeline.work index now) heard := by
  rw [work_idle now hidle]
  have hlength := pipeline.crew.step_length index now
  have hother : ∀ other, pipeline.sent[other]? = some true → other ≠ index := by
    rintro other hsent rfl
    obtain ⟨worker, hworker, hover⟩ := h.reported other hsent
    rw [hidle worker hworker] at hover
    cases hover
  constructor
  case slots => exact h.slots.trans hlength.symm
  case reported =>
    intro other hsent
    obtain ⟨worker, hworker, hover⟩ := h.reported other hsent
    exact ⟨worker, (pipeline.crew.step_others now (hother other hsent)).trans hworker, hover⟩
  case reports =>
    refine h.reports.trans (List.Perm.of_eq ?_)
    -- reports sent so far are those of workers that are over, and these have not moved
    simp only [exits, hlength]
    apply List.filterMap_congr
    intro other _
    simp only [report]
    split
    · rename_i hsent
      rw [pipeline.crew.step_others now (hother other ?_)]
      simpa [List.getD_eq_getElem?_getD, Option.getD_eq_iff] using hsent
    · rfl

/-- A turn of a worker that is over. -/
theorem Mail.tells {index : Nat} (now : Nat) {worker : Worker} {outcome : Except Problem Deed}
    (hworker : pipeline.crew.workers[index]? = some worker)
    (houtcome : worker.outcome = some outcome) : Mail (pipeline.work index now) heard := by
  obtain ⟨hlt, -⟩ := List.getElem?_eq_some_iff.mp hworker
  rw [work_over now hworker houtcome]
  split
  · exact h
  · rename_i hunsent
    have hslot : index < pipeline.sent.length := h.slots ▸ hlt
    have hunsent' : pipeline.sent[index]? = some false := by
      rw [List.getD_eq_getElem?_getD, List.getElem?_eq_getElem hslot, Option.getD_some,
        Bool.not_eq_true] at hunsent
      rw [List.getElem?_eq_getElem hslot, hunsent]
    refine ⟨by simpa using h.slots, ?_, ?_⟩
    · intro other hsent
      rw [List.getElem?_set] at hsent
      split at hsent
      · rename_i hsame
        exact ⟨worker, hsame ▸ hworker, by rw [houtcome]; rfl⟩
      · exact h.reported other hsent
    · have hreports := h.reports.append_right [⟨worker.role, outcome⟩]
      rw [List.append_assoc] at hreports
      apply hreports.trans
      refine (filterMap_gain hlt ?_ ?_ ?_).symm
      · simp [report, List.getD_eq_getElem?_getD, hunsent']
      · simp [report, List.getD_eq_getElem?_getD, hslot, hworker, houtcome]
      · intro other hother
        simp [report, List.getD_eq_getElem?_getD, List.getElem?_set_ne hother.symm]

/-- Everything but the workers and their reports may move on, and a report may be received. -/
theorem Mail.move {after : Pipeline} {more : List Exit}
    (hworkers : after.crew.workers = pipeline.crew.workers) (hsent : after.sent = pipeline.sent)
    (hreports : more ++ after.mailbox = heard ++ pipeline.mailbox) : after.Mail more := by
  have hexits : after.exits = pipeline.exits := by
    rw [exits, exits, hworkers]
    apply List.filterMap_congr
    intro index _
    rw [report, report, hworkers, hsent]
  refine ⟨?_, ?_, ?_⟩
  · rw [hsent, hworkers]
    exact h.slots
  · rw [hsent, hworkers]
    exact h.reported
  · rw [hreports, hexits]
    exact h.reports

/-- A report is that of a worker that is over. -/
theorem Mail.of_worker {exit : Exit} (hexit : exit ∈ heard ++ pipeline.mailbox) :
    ∃ worker ∈ pipeline.crew.workers, worker.role = exit.role ∧
      worker.outcome = some exit.outcome := by
  have hreported := h.reports.subset hexit
  rw [exits, List.mem_filterMap] at hreported
  obtain ⟨index, -, hreport⟩ := hreported
  rw [report] at hreport
  split at hreport
  · obtain ⟨worker, hworker, hmap⟩ := Option.bind_eq_some_iff.mp hreport
    obtain ⟨outcome, houtcome, rfl⟩ := Option.map_eq_some_iff.mp hmap
    exact ⟨worker, List.mem_of_getElem? hworker, rfl, houtcome⟩
  · cases hreport

/-- There are no more reports than workers. -/
theorem Mail.length_le : heard.length + pipeline.mailbox.length ≤ pipeline.crew.workers.length := by
  have hreports := h.reports.length_eq
  have hmost : pipeline.exits.length ≤ (List.range pipeline.crew.workers.length).length :=
    List.length_filterMap_le _ _
  rw [List.length_range] at hmost
  rw [List.length_append] at hreports
  omega

/-- When as many reports are in as there are workers, all workers have reported. -/
theorem Mail.all_reported (hall : heard.length = pipeline.crew.workers.length) :
    heard.Perm pipeline.exits ∧
      ∀ index < pipeline.crew.workers.length, (pipeline.report index).isSome := by
  have hmost := h.length_le
  have hempty : pipeline.mailbox = [] := List.eq_nil_of_length_eq_zero (by omega)
  have hperm : heard.Perm pipeline.exits := by simpa [hempty] using h.reports
  refine ⟨hperm, fun index hindex => ?_⟩
  have hfull : pipeline.exits.length = (List.range pipeline.crew.workers.length).length := by
    rw [List.length_range, ← hperm.length_eq, hall]
  exact List.filterMap_length_eq_length.mp hfull index (List.mem_range.mpr hindex)

theorem Mail.exits_sent
    (hsent : ∀ index < pipeline.crew.workers.length, pipeline.sent[index]? = some true) :
    pipeline.exits.length = pipeline.crew.workers.length := by
  have hfull : pipeline.exits.length = (List.range pipeline.crew.workers.length).length := by
    apply List.filterMap_length_eq_length.mpr
    intro index hindex
    have hmarked := hsent index (List.mem_range.mp hindex)
    obtain ⟨worker, hworker, hover⟩ := h.reported index hmarked
    simp [report, List.getD_eq_getElem?_getD, hmarked, hworker, hover]
  rwa [List.length_range] at hfull

end Mail

/-! ### What the supervisor has heard -/

namespace Notes

/-- The notes after some reports, none of which is a failure. -/
structure Told (notes : Notes) (heard : List Exit) : Prop where
  received : notes.received = heard.length
  error : notes.error = none
  producer : notes.producer = (heard.filterMap Exit.produced).getLast?
  stages : notes.stages = heard.filterMap Exit.staged

theorem receive_received (notes : Notes) (exit : Exit) :
    (notes.receive exit).received = notes.received + 1 := by
  simp only [Notes.receive]
  split
  · rfl
  · rfl
  · split <;> rfl

theorem Told.receive {notes : Notes} {heard : List Exit} {exit : Exit} (h : notes.Told heard)
    (hok : ∃ deed, exit.outcome = .ok deed) : (notes.receive exit).Told (heard ++ [exit]) := by
  obtain ⟨deed, hdeed⟩ := hok
  have hreceived := h.received
  cases deed with
  | produced stats =>
      simp only [Notes.receive, hdeed]
      refine ⟨by simp [hreceived], h.error, ?_, ?_⟩
      · simp [List.filterMap_append, Exit.produced, hdeed]
      · simp [List.filterMap_append, Exit.staged, hdeed, h.stages]
  | staged stats =>
      simp only [Notes.receive, hdeed]
      refine ⟨by simp [hreceived], h.error, ?_, ?_⟩
      · simp [List.filterMap_append, Exit.produced, hdeed, h.producer]
      · simp [List.filterMap_append, Exit.staged, hdeed, h.stages]

end Notes

/-- The supervisor has received some reports of so many workers and not returned. -/
def Duty.Told (workers : Nat) (heard : List Exit) : Duty → Prop
  | .receive notes | .awaitPretoucher notes => notes.Told heard
  | .windDown notes | .conclude notes => notes.Told heard ∧ heard.length = workers
  | .returned _ => False

/-- How many impatient turns the supervisor still needs at most, if no report is missing. -/
def Duty.rank (workers : Nat) : Duty → Nat
  | .awaitPretoucher notes => 2 * (workers - notes.received) + 4
  | .receive notes => 2 * (workers - notes.received) + 3
  | .windDown _ => 2
  | .conclude _ => 1
  | .returned _ => 0

theorem Duty.rank_le (workers : Nat) (duty : Duty) : duty.rank workers ≤ 2 * workers + 4 := by
  cases duty <;> simp only [rank] <;> omega

/-- The supervisor waits for a report that has not been sent. -/
def Waits (pipeline : Pipeline) : Prop :=
  ∃ notes, pipeline.supervisor = .receive notes ∧
    notes.received ≠ pipeline.crew.workers.length ∧ pipeline.mailbox = []

/-- No turn of the supervisor takes it further from its end, and one in which it neither waits for
the pretoucher nor for a report takes it nearer. -/
theorem rank_supervise {pipeline : Pipeline}
    (hcount : ∀ notes, pipeline.supervisor = .receive notes →
      notes.received ≤ pipeline.crew.workers.length) (patient : Bool) :
    (pipeline.supervise patient).supervisor.rank pipeline.crew.workers.length ≤
        pipeline.supervisor.rank pipeline.crew.workers.length ∧
      (patient = false → pipeline.hasReturned = false → ¬ pipeline.Waits →
        (pipeline.supervise patient).supervisor.rank pipeline.crew.workers.length <
          pipeline.supervisor.rank pipeline.crew.workers.length) := by
  obtain ⟨⟨context, workers⟩, sent, mailbox, pretoucher, supervisor⟩ := pipeline
  cases supervisor with
  | returned outcome => exact ⟨Nat.le_refl _, fun _ hreturned => by cases hreturned⟩
  | conclude notes =>
      simp only [supervise, Duty.rank]
      omega
  | windDown notes =>
      simp only [supervise]
      cases pretoucher <;> cases patient <;> simp [Pretoucher.awaited, Duty.rank]
  | awaitPretoucher notes =>
      simp only [supervise]
      cases pretoucher <;> cases patient <;> simp [Pretoucher.awaited, Duty.rank]
  | receive notes =>
      have hbound := hcount notes rfl
      simp only at hbound
      simp only [supervise]
      split
      · split <;> simp only [Duty.rank] <;> omega
      · rename_i hmissing
        cases mailbox with
        | nil => exact ⟨Nat.le_refl _, fun _ _ hbusy => absurd ⟨notes, rfl, hmissing, rfl⟩ hbusy⟩
        | cons exit rest =>
            have hmore := notes.receive_received exit
            by_cases hproduced : (exit.isProducerDone && notes.minding) = true
            · simp only [if_pos hproduced, Duty.rank, hmore]
              omega
            · simp only [if_neg hproduced, Duty.rank, hmore]
              omega

end GatedPipeline.Pipeline
