import GatedPipeline.Proofs.Pipeline.Completion
import GatedPipeline.Proofs.Worker.Aborted
import GatedPipeline.Proofs.Worker.Causes

/-!
Runs in which workers fail. Every worker reports once, the supervisor receives the reports in the
order in which they were sent, and what it returns is the first error among them. Only that error
raises the flag, so the worker that sent it had failed before anyone was asked to give up.
-/

namespace GatedPipeline

namespace Crew

theorem work_frame (crew : Crew) (index now : Nat) :
    (crew.step (.work index now)).context.frame = crew.context.frame := by
  obtain ⟨context, workers⟩ := crew
  simp only [step]
  split
  · rfl
  · exact Worker.frame_turn now context _

theorem roles_step (crew : Crew) (step : Step) :
    (crew.step step).workers.map Worker.role = crew.workers.map Worker.role := by
  cases step with
  | abort => rfl
  | work index now =>
      apply List.ext_getElem?
      intro other
      rw [List.getElem?_map, List.getElem?_map]
      cases hworker : crew.workers[other]? with
      | none =>
          have hlength := crew.step_length index now
          rw [List.getElem?_eq_none_iff, ← hlength, ← List.getElem?_eq_none_iff] at hworker
          rw [hworker]
      | some worker =>
          rw [Crew.worker_step hworker]
          cases hreading : (Step.work index now).reading other with
          | none => rfl
          | some now => exact congrArg some (Worker.role_turn now _ worker)

end Crew

namespace Pipeline

open Worker

/-- The reading of the clock with which a worker has this turn, if it is its turn. -/
def Turn.reading (index : Nat) : Turn → Option Nat
  | .worker other now => if other = index then some now else none
  | .pretoucher | .supervisor _ => none

/-- What a turn does to one of the workers. -/
theorem worker_turn {pipeline : Pipeline} {index : Nat} {worker : Worker}
    (hworker : pipeline.crew.workers[index]? = some worker) (turn : Turn) :
    (pipeline.turn turn).crew.workers[index]? =
      some ((turn.reading index).elim worker fun now =>
        (worker.turn now pipeline.crew.context).2) := by
  cases turn with
  | pretoucher => exact (congrArg (·[index]?) (pretouch_others pipeline).1).trans hworker
  | supervisor patient =>
      exact (congrArg (·[index]?) (pipeline.supervise_workers patient)).trans hworker
  | worker other now =>
      change (pipeline.work other now).crew.workers[index]? = _
      rcases pipeline.idle_or_over other with hidle | ⟨another, outcome, hanother, houtcome⟩
      · rw [work_idle now hidle]
        exact Crew.worker_step hworker (.work other now)
      · -- a worker that is over would not have changed in its turn either
        have hsame : (pipeline.work other now).crew = pipeline.crew := by
          rw [work_over now hanother houtcome]
          split <;> rfl
        rw [hsame, hworker]
        by_cases hindex : other = index
        · subst hindex
          obtain rfl : worker = another := Option.some.inj (hworker.symm.trans hanother)
          simp only [Turn.reading, if_true, Option.elim_some,
            Worker.turn_over now _ houtcome]
        · simp only [Turn.reading, if_neg hindex, Option.elim_none]

/-- The failure that a report announces, as the supervisor tells it. -/
def Exit.failure (exit : Exit) : Option Failure :=
  match exit.outcome with
  | .ok _ => none
  | .error problem => some (problem.reported.within (.worker exit.role.name))

def Exit.isError (exit : Exit) : Bool := exit.failure.isSome

/-- The report that is sent in a turn. -/
def posts (pipeline : Pipeline) : Turn → List Exit
  | .worker index _ =>
      if pipeline.sent.getD index true then []
      else (pipeline.crew.workers[index]?.bind fun worker =>
        worker.outcome.map (Exit.mk worker.role)).toList
  | .pretoucher | .supervisor _ => []

/-- The report that is received in a turn. -/
def hears (pipeline : Pipeline) : Turn → List Exit
  | .supervisor _ =>
      match pipeline.supervisor with
      | .receive notes =>
          if notes.received = pipeline.crew.workers.length then [] else pipeline.mailbox.take 1
      | _ => []
  | .worker _ _ | .pretoucher => []

def posted (pipeline : Pipeline) : List Turn → List Exit
  | [] => []
  | turn :: rest => pipeline.posts turn ++ (pipeline.turn turn).posted rest

def heard (pipeline : Pipeline) : List Turn → List Exit
  | [] => []
  | turn :: rest => pipeline.hears turn ++ (pipeline.turn turn).heard rest

structure Notes.Hold (notes : Notes) (heard : List Exit) : Prop where
  received : notes.received = heard.length
  error : notes.error = heard.findSome? Exit.failure

/-- What the supervisor does after some reports of so many workers. -/
def Duty.Hold (workers : Nat) (heard : List Exit) : Duty → Prop
  | .receive notes | .awaitPretoucher notes => notes.Hold heard
  | .windDown notes | .conclude notes => notes.Hold heard ∧ heard.length = workers
  | .returned outcome => heard.length = workers ∧
      ∀ failure, heard.findSome? Exit.failure = some failure → outcome = .error (.failed failure)

/-- A run beside the reports sent and those received. The reports sent are those received and behind
them those in the mailbox, and the run is aborted once an error is among those received. -/
structure Reporting (pipeline : Pipeline) (stages : Nat) (posted heard : List Exit) : Prop where
  roles : pipeline.crew.workers.map Worker.role = Crew.roles stages
  mail : pipeline.Mail heard
  order : posted = heard ++ pipeline.mailbox
  flag : pipeline.crew.context.aborted = heard.any Exit.isError
  supervisor : pipeline.supervisor.Hold pipeline.crew.workers.length heard

theorem hears_mailbox {pipeline : Pipeline} {turn : Turn} {exit : Exit}
    (h : exit ∈ pipeline.hears turn) : exit ∈ pipeline.mailbox := by
  cases turn with
  | worker index now => cases h
  | pretoucher => cases h
  | supervisor patient =>
      simp only [hears] at h
      split at h
      · split at h
        · cases h
        · exact List.mem_of_mem_take h
      · cases h

/-- The first failure told is that of the first error. -/
theorem find?_of_failure {heard : List Exit} {failure : Failure}
    (h : heard.findSome? Exit.failure = some failure) :
    ∃ exit, heard.find? Exit.isError = some exit ∧ exit.failure = some failure := by
  induction heard with
  | nil => cases h
  | cons exit rest ih =>
      cases hexit : exit.failure with
      | none =>
          rw [List.findSome?_cons_of_isNone (by rw [hexit]; rfl)] at h
          rw [List.find?_cons_of_neg (by simp [Exit.isError, hexit])]
          exact ih h
      | some first =>
          rw [List.findSome?_cons_of_isSome (by rw [hexit]; rfl), hexit] at h
          refine ⟨exit, List.find?_cons_of_pos (by simp [Exit.isError, hexit]), hexit.trans h⟩

theorem isSome_failure (heard : List Exit) :
    (heard.findSome? Exit.failure).isSome = heard.any Exit.isError := by
  induction heard with
  | nil => rfl
  | cons exit rest ih =>
      cases hexit : exit.failure with
      | none => simp [Exit.isError, hexit, ih]
      | some failure => simp [Exit.isError, hexit]

/-! ### What leaves the flag and the directory as they are -/

theorem release_frame (context : Run.Context) (shared : Bool) :
    (release context shared).frame = context.frame := by
  cases shared <;> rfl

theorem removeDirectory_frame {context after : Run.Context} {shared : Bool}
    {result : Except Failure Unit} (hremove : removeDirectory context shared = (after, result)) :
    after.frame = context.frame := by
  cases shared with
  | true =>
      simp only [removeDirectory, if_true] at hremove
      split at hremove <;> cases hremove <;> rfl
  | false =>
      cases hremove
      rfl

theorem collect_frame {context after : Run.Context} {result : Except Fault Latency.Report}
    (hcollect : Latency.collect context = (after, result)) : after.frame = context.frame := by
  simp only [Latency.collect] at hcollect
  split at hcollect
  · cases hcollect
    rfl
  · cases hcollect
    split <;> rfl

theorem conclude_frame (context : Run.Context) (shared : Bool) (notes : Notes) :
    (conclude context shared notes).1.frame = context.frame := by
  simp only [conclude]
  split
  · exact release_frame context shared
  · exact release_frame context shared
  · split
    · rename_i hcollect
      exact (release_frame _ shared).trans (collect_frame hcollect)
    · rename_i hcollect
      have hcollected := collect_frame hcollect
      split
      · exact (release_frame _ shared).trans hcollected
      · split
        · rename_i hremove
          exact (release_frame _ shared).trans ((removeDirectory_frame hremove).trans hcollected)
        · rename_i hremove
          exact (removeDirectory_frame hremove).trans hcollected

theorem pretouch_frame (pipeline : Pipeline) :
    pipeline.pretouch.crew.context.frame = pipeline.crew.context.frame := by
  obtain ⟨log, pretoucher, ⟨hturn, -⟩ | ⟨hturn, -⟩⟩ := pipeline.pretouch_cases
  · rw [hturn]
    rfl
  · rw [hturn]
    dsimp only
    split
    · exact release_frame _ false
    · rfl

theorem work_frame (pipeline : Pipeline) (index now : Nat) :
    (pipeline.work index now).crew.context.frame = pipeline.crew.context.frame := by
  rcases pipeline.idle_or_over index with hidle | ⟨worker, outcome, hworker, houtcome⟩
  · rw [work_idle now hidle]
    exact pipeline.crew.work_frame index now
  · rw [work_over now hworker houtcome]
    split <;> rfl

theorem supervise_aborted (pipeline : Pipeline) (patient : Bool)
    (h : pipeline.crew.context.aborted = true) :
    (pipeline.supervise patient).crew.context.aborted = true := by
  rcases pipeline.supervise_crew patient with hcrew | hcrew | ⟨notes, -, hcrew⟩
  · rwa [hcrew]
  · rw [hcrew]
    rfl
  · rw [hcrew]
    exact (congrArg Prod.fst (conclude_frame _ _ notes)).trans h

/-- The flag is never taken back. -/
theorem aborted_turn (pipeline : Pipeline) (turn : Turn)
    (h : pipeline.crew.context.aborted = true) :
    (pipeline.turn turn).crew.context.aborted = true := by
  cases turn with
  | worker index now => exact (congrArg Prod.fst (pipeline.work_frame index now)).trans h
  | pretoucher => exact (congrArg Prod.fst (pretouch_frame pipeline)).trans h
  | supervisor patient => exact pipeline.supervise_aborted patient h

/-! ### What the supervisor has heard -/

theorem Notes.Hold.receive {notes : Notes} {heard : List Exit} (h : notes.Hold heard)
    (exit : Exit) : (notes.receive exit).Hold (heard ++ [exit]) := by
  refine ⟨?_, ?_⟩
  · rw [notes.receive_received, h.received, List.length_append, List.length_singleton]
  · have herror := h.error
    simp only [Notes.receive, List.findSome?_append]
    cases hexit : exit.outcome with
    | ok deed =>
        have hnone : [exit].findSome? Exit.failure = none := by simp [Exit.failure, hexit]
        rw [hnone, Option.or_none, ← herror]
        cases deed <;> rfl
    | error problem =>
        have hsome : [exit].findSome? Exit.failure =
            some (problem.reported.within (.worker exit.role.name)) := by
          simp [Exit.failure, hexit]
        rw [hsome, ← herror]
        dsimp only
        cases hfirst : notes.error with
        | none => rfl
        | some failure => rfl

theorem Notes.Hold.firstError {notes : Notes} {heard : List Exit} (h : notes.Hold heard)
    (exit : Exit) : (notes.isFirstError exit || heard.any Exit.isError) =
      (heard ++ [exit]).any Exit.isError := by
  rw [← isSome_failure, ← h.error, List.any_append, ← isSome_failure, ← h.error]
  simp only [Notes.isFirstError]
  cases hexit : exit.outcome <;> cases notes.error <;> simp [Exit.isError, Exit.failure, hexit]

theorem conclude_error {context : Run.Context} {shared : Bool} {notes : Notes} {failure : Failure}
    (herror : notes.error = some failure) :
    (conclude context shared notes).2 = .error (.failed failure) := by
  simp only [conclude, herror]

/-! ### What every turn keeps -/

section Reporting

variable {pipeline : Pipeline} {stages : Nat} {posted heard : List Exit}
  (h : pipeline.Reporting stages posted heard)

include h

/-- A turn of a worker: it works, or sends its report. -/
private theorem Reporting.work (index now : Nat) : Reporting (pipeline.work index now) stages
    (posted ++ pipeline.posts (.worker index now)) heard := by
  have hduty := pipeline.work_supervisor index now
  have hflag := congrArg Prod.fst (pipeline.work_frame index now)
  rcases pipeline.idle_or_over index with hidle | ⟨worker, outcome, hworker, houtcome⟩
  · have hnone : pipeline.posts (.worker index now) = [] := by
      simp only [posts]
      split
      · rfl
      · cases hworker : pipeline.crew.workers[index]? with
        | none => rfl
        | some worker => simp [hidle worker hworker]
    rw [hnone, List.append_nil]
    refine ⟨?_, h.mail.works now hidle, ?_, hflag.trans h.flag, ?_⟩
    · rw [work_idle now hidle]
      exact (pipeline.crew.roles_step _).trans h.roles
    · rw [work_idle now hidle]
      exact h.order
    · rw [hduty, work_idle now hidle]
      simp only [pipeline.crew.step_length index now]
      exact h.supervisor
  · have hmail := h.mail.tells now hworker houtcome
    rw [work_over now hworker houtcome] at hmail hduty hflag ⊢
    simp only [posts]
    split
    · rw [List.append_nil]
      exact h
    · rename_i hunsent
      rw [if_neg hunsent] at hmail
      refine ⟨h.roles, hmail, ?_, h.flag, h.supervisor⟩
      rw [h.order, List.append_assoc]
      simp [hworker, houtcome]

private theorem Reporting.pretouch : Reporting pipeline.pretouch stages posted heard := by
  obtain ⟨hworkers, hsent, hmailbox, hduty⟩ := pretouch_others pipeline
  refine ⟨?_, h.mail.move hworkers hsent (by rw [hmailbox]), ?_, ?_, ?_⟩
  · rw [hworkers]
    exact h.roles
  · rw [hmailbox]
    exact h.order
  · exact (congrArg Prod.fst (pretouch_frame pipeline)).trans h.flag
  · rw [hduty, hworkers]
    exact h.supervisor

/-- A turn of the supervisor that does not receive a report. -/
private theorem Reporting.move {context : Run.Context} {pretoucher : Pretoucher} {duty : Duty}
    (hflag : context.aborted = pipeline.crew.context.aborted)
    (hduty : duty.Hold pipeline.crew.workers.length heard) :
    Reporting ⟨⟨context, pipeline.crew.workers⟩, pipeline.sent, pipeline.mailbox, pretoucher, duty⟩
      stages posted heard :=
  ⟨h.roles, h.mail.move rfl rfl rfl, h.order, hflag.trans h.flag, hduty⟩

private theorem Reporting.receives {notes : Notes} (patient : Bool)
    (hduty : pipeline.supervisor = .receive notes) :
    Reporting (pipeline.supervise patient) stages posted
      (heard ++ pipeline.hears (.supervisor patient)) := by
  have hhold := h.supervisor
  rw [hduty] at hhold
  obtain ⟨⟨context, workers⟩, sent, mailbox, pretoucher, supervisor⟩ := pipeline
  cases hduty
  simp only [Pipeline.supervise, hears]
  split
  · rename_i hall
    have hlength : heard.length = workers.length := hhold.received.symm.trans hall
    rw [List.append_nil]
    refine h.move rfl ?_
    split <;> exact ⟨hhold, hlength⟩
  · cases mailbox with
    | nil =>
        rw [List.take_nil, List.append_nil]
        exact h
    | cons exit rest =>
        have hmore := hhold.receive exit
        have hflag : (if notes.isFirstError exit then context.abort else context).aborted =
            (heard ++ [exit]).any Exit.isError := by
          have hflag : context.aborted = _ := h.flag
          rw [← hhold.firstError, ← hflag]
          cases notes.isFirstError exit <;> rfl
        have hreports : (heard ++ [exit]) ++ rest = heard ++ exit :: rest := by simp
        rw [List.take_succ_cons, List.take_zero]
        dsimp only
        split
        · exact ⟨h.roles, h.mail.move rfl rfl hreports, h.order.trans hreports.symm, hflag,
            hmore.received, hmore.error⟩
        · exact ⟨h.roles, h.mail.move rfl rfl hreports, h.order.trans hreports.symm, hflag, hmore⟩

private theorem Reporting.supervise (patient : Bool) :
    Reporting (pipeline.supervise patient) stages posted
      (heard ++ pipeline.hears (.supervisor patient)) := by
  obtain ⟨⟨context, workers⟩, sent, mailbox, pretoucher, supervisor⟩ := pipeline
  have hhold : supervisor.Hold workers.length heard := h.supervisor
  cases supervisor with
  | receive notes => exact h.receives patient rfl
  | awaitPretoucher notes =>
      simp only [hears, List.append_nil]
      refine h.move rfl ?_
      split
      · exact hhold
      · exact ⟨hhold.received, hhold.error⟩
  | windDown notes =>
      simp only [hears, List.append_nil]
      refine h.move rfl ?_
      split
      · exact hhold
      · exact ⟨⟨hhold.1.received, hhold.1.error⟩, hhold.2⟩
  | conclude notes =>
      simp only [hears, List.append_nil]
      have hflag := congrArg Prod.fst (conclude_frame context pretoucher.holdsRun notes)
      refine h.move hflag ⟨hhold.2, fun failure hfailure => ?_⟩
      exact conclude_error (hhold.1.error.trans hfailure)
  | returned outcome =>
      simp only [hears, List.append_nil]
      exact h

theorem Reporting.turn (turn : Turn) : Reporting (pipeline.turn turn) stages
    (posted ++ pipeline.posts turn) (heard ++ pipeline.hears turn) := by
  cases turn with
  | worker index now =>
      rw [hears, List.append_nil]
      exact h.work index now
  | pretoucher =>
      rw [hears, posts, List.append_nil, List.append_nil]
      exact h.pretouch
  | supervisor patient =>
      rw [posts, List.append_nil]
      exact h.supervise patient

theorem Reporting.run (schedule : List Turn) : Reporting (pipeline.run schedule) stages
    (posted ++ pipeline.posted schedule) (heard ++ pipeline.heard schedule) := by
  induction schedule generalizing pipeline posted heard with
  | nil =>
      simp only [Pipeline.posted, Pipeline.heard, List.append_nil]
      exact h
  | cons turn rest ih =>
      have hrest := ih (h.turn turn)
      simp only [List.append_assoc] at hrest
      exact hrest

/-! ### What follows from it -/

/-- No worker reports twice. -/
theorem Reporting.once : (posted.map Exit.role).Nodup := by
  have hperm := h.mail.reports
  rw [← h.order] at hperm
  refine (hperm.map Exit.role).nodup_iff.mpr ?_
  have hnodup := Crew.roles_nodup stages
  rw [← h.roles] at hnodup
  rw [exits, List.map_filterMap]
  refine List.nodup_range.filterMap fun index other role hrole hother => ?_
  have hat : ∀ index, role ∈ (pipeline.report index).map Exit.role →
      (pipeline.crew.workers.map Worker.role)[index]? = some role := by
    intro index hrole
    obtain ⟨exit, hexit, rfl⟩ := Option.map_eq_some_iff.mp hrole
    rw [report] at hexit
    split at hexit
    · obtain ⟨worker, hworker, hmap⟩ := Option.bind_eq_some_iff.mp hexit
      obtain ⟨outcome, -, rfl⟩ := Option.map_eq_some_iff.mp hmap
      rw [List.getElem?_map, hworker]
      rfl
    · cases hexit
  obtain ⟨hlt, -⟩ := List.getElem?_eq_some_iff.mp (hat index hrole)
  exact (List.getElem?_inj hlt hnodup).mp ((hat index hrole).trans (hat other hother).symm)

/-- Once the supervisor has returned, all workers have, and each has reported. -/
theorem Reporting.returned {outcome : Except Problem Run.Report}
    (houtcome : pipeline.outcome = some outcome) :
    pipeline.crew.allOver ∧ pipeline.mailbox = [] ∧
      (heard.map Exit.role).Perm (Crew.roles stages) ∧
        ∀ failure, heard.findSome? Exit.failure = some failure →
          outcome = .error (.failed failure) := by
  have hhold := h.supervisor
  cases hduty : pipeline.supervisor with
  | returned result =>
      simp only [Pipeline.outcome, hduty, Option.some.injEq] at houtcome
      subst houtcome
      rw [hduty] at hhold
      obtain ⟨hlength, herror⟩ := hhold
      obtain ⟨hperm, hall⟩ := h.mail.all_reported hlength
      have hmost := h.mail.length_le
      have hempty : pipeline.mailbox = [] := List.eq_nil_of_length_eq_zero (by omega)
      have hover : ∀ worker ∈ pipeline.crew.workers, worker.isOver := by
        intro worker hworker
        obtain ⟨index, hindex⟩ := List.mem_iff_getElem?.mp hworker
        obtain ⟨hlt, -⟩ := List.getElem?_eq_some_iff.mp hindex
        have hsome := hall index hlt
        rw [report] at hsome
        split at hsome
        · rwa [hindex, Option.bind_some, Option.isSome_map] at hsome
        · cases hsome
      refine ⟨List.all_eq_true.mpr hover, hempty, ?_, herror⟩
      refine (hperm.map Exit.role).trans (List.Perm.of_eq ?_)
      rw [exits_all hall, ← h.roles, List.map_filterMap, ← List.filterMap_eq_map]
      apply List.filterMap_congr
      intro worker hworker
      obtain ⟨outcome, houtcome⟩ := Option.isSome_iff_exists.mp (hover worker hworker)
      rw [houtcome]
      rfl
  | _ => simp only [Pipeline.outcome, hduty, reduceCtorEq] at houtcome

/-- When it has, the supervisor has heard from every worker how it ended. -/
theorem Reporting.told {outcome : Except Problem Run.Report}
    (houtcome : pipeline.outcome = some outcome) {worker : Worker}
    (hworker : worker ∈ pipeline.crew.workers) :
    ∃ exit ∈ heard, worker.outcome = some exit.outcome := by
  obtain ⟨-, -, hroles, -⟩ := h.returned houtcome
  have hrole := List.mem_map_of_mem (f := Worker.role) hworker
  rw [h.roles] at hrole
  obtain ⟨exit, hexit, hsame⟩ := List.mem_map.mp (hroles.symm.subset hrole)
  obtain ⟨other, hother, hrole', hreported⟩ := h.mail.of_worker (List.mem_append_left _ hexit)
  have hnodup := Crew.roles_nodup stages
  rw [← h.roles] at hnodup
  obtain rfl := List.inj_on_of_nodup_map hnodup hother hworker (hrole'.trans hsame)
  exact ⟨exit, hexit, hreported⟩

theorem Reporting.down_before {schedule : List Turn}
    (hdown : (pipeline.run schedule).crew.context.aborted = false) :
    pipeline.crew.context.aborted = false := by
  rw [(h.run schedule).flag, List.any_append, Bool.or_eq_false_iff] at hdown
  exact h.flag.trans hdown.1

/-- The worker whose error comes in first had failed before anyone was asked to give up. -/
theorem Reporting.first {schedule : List Turn} (hdown : pipeline.crew.context.aborted = false)
    {exit : Exit} (hexit : (pipeline.heard schedule).find? Exit.isError = some exit) :
    ∃ before after, schedule = before ++ after ∧
      (pipeline.run before).crew.context.aborted = false ∧
        ∃ worker ∈ (pipeline.run before).crew.workers, worker.role = exit.role ∧
          worker.outcome = some exit.outcome := by
  induction schedule generalizing pipeline posted heard with
  | nil => cases hexit
  | cons turn rest ih =>
      rw [Pipeline.heard, List.find?_append] at hexit
      cases hnow : (pipeline.hears turn).find? Exit.isError with
      | some first =>
          rw [hnow, Option.some_or, Option.some.injEq] at hexit
          subst hexit
          have hmailbox : first ∈ pipeline.mailbox := hears_mailbox (List.mem_of_find?_eq_some hnow)
          exact ⟨[], turn :: rest, rfl, hdown, h.mail.of_worker (List.mem_append_right _ hmailbox)⟩
      | none =>
          rw [hnow, Option.none_or] at hexit
          have hafter := h.turn turn
          have hstill : (pipeline.turn turn).crew.context.aborted = false := by
            rw [hafter.flag, List.any_append, ← h.flag, hdown, Bool.false_or]
            exact List.any_eq_false.mpr (List.find?_eq_none.mp hnow)
          obtain ⟨before, after, rfl, hfound⟩ := ih hafter hstill hexit
          exact ⟨turn :: before, after, rfl, hfound⟩

/-- As long as the flag is down no worker has failed for being aborted. -/
theorem Reporting.genuine (hgenuine : ∀ worker ∈ pipeline.crew.workers, worker.Genuine)
    {schedule : List Turn} (hdown : (pipeline.run schedule).crew.context.aborted = false) :
    ∀ worker ∈ (pipeline.run schedule).crew.workers, worker.Genuine := by
  induction schedule generalizing pipeline posted heard with
  | nil => exact hgenuine
  | cons turn rest ih =>
      have hafter := h.turn turn
      refine ih hafter (fun after hmember => ?_) hdown
      obtain ⟨index, hindex⟩ := List.mem_iff_getElem?.mp hmember
      obtain ⟨hlt, -⟩ := List.getElem?_eq_some_iff.mp hindex
      have hlength : (pipeline.turn turn).crew.workers.length = pipeline.crew.workers.length := by
        rw [← List.length_map Worker.role, ← List.length_map Worker.role, hafter.roles, h.roles]
      have hbefore := List.getElem?_eq_getElem (hlength ▸ hlt)
      have hworker := hgenuine _ (List.getElem_mem (hlength ▸ hlt))
      obtain rfl := Option.some.inj (hindex.symm.trans (worker_turn hbefore turn))
      cases turn.reading index with
      | none => exact hworker
      | some now =>
          have hbefore := hafter.down_before hdown
          refine hworker.turn now (Bool.eq_false_iff.mpr fun hraised => ?_)
          rw [pipeline.aborted_turn turn hraised] at hbefore
          cases hbefore

end Reporting

theorem start_frame (context : Run.Context) (pause : Role → Pause) :
    (Crew.start context pause).context.frame = context.frame := by
  have hsaid : ∀ (events : List Event) (context : Run.Context),
      (events.foldl Run.Context.say context).frame = context.frame := by
    intro events
    induction events with
    | nil => exact fun _ => rfl
    | cons event rest ih => exact fun context => ih (context.say event)
  have hpinned : ∀ (roles : List Role) (context : Run.Context),
      (roles.foldl (fun context role => Crew.pin context (Crew.core context.config role))
        context).frame = context.frame := by
    intro roles
    induction roles with
    | nil => exact fun _ => rfl
    | cons role rest ih => exact fun context => (ih _).trans (hsaid _ context)
  exact hpinned _ context

theorem start_aborted (context : Run.Context) (pause : Role → Pause) :
    (Crew.start context pause).context.aborted = context.aborted :=
  congrArg Prod.fst (start_frame context pause)

theorem start_reporting {config : Run.Config} {context : Run.Context} {place : Storage.Place}
    (h : context.Fresh config place) (pause : Role → Pause) :
    (start context pause).Reporting config.stages [] [] := by
  have hrunning := start_running h pause
  exact ⟨hrunning.crew.roles, hrunning.mail, rfl, (start_aborted context pause).trans h.aborted,
    rfl, rfl⟩

/-- How an error is told: who failed, and then what that worker said, or the fault it broke on. -/
def Exit.Told (exit : Exit) (failure : Failure) : Prop :=
  ∃ problem, exit.outcome = .error problem ∧
    failure.texts = (exit.role.name ++ " failed") :: match problem with
      | .failed inner => inner.texts
      | .broken fault => ["panicked: " ++ fault.text]

theorem Exit.told_of_failure {exit : Exit} {failure : Failure} (h : exit.failure = some failure) :
    exit.Told failure := by
  simp only [Exit.failure] at h
  split at h
  · cases h
  · rename_i problem hproblem
    cases h
    refine ⟨problem, hproblem, ?_⟩
    cases problem <;> rfl

/-- What a run has to do with the reports that were sent and received. No worker reports twice,
every report is that of a worker that is over, and the reports come in as they were sent. The run is
asked to give up when the first error has come in and not before, and by `first` the worker that
sent it had failed before that. When the supervisor returns, all workers have returned and each has
reported once. It returns an error if and only if there was one among the reports, namely the first
one, with the name of its worker. By `genuine` this is not the error of an aborted wait unless a
pause gives that one by itself. -/
structure Unmasked (pipeline : Pipeline) (stages : Nat) (schedule : List Turn) : Prop where
  once : ((pipeline.posted schedule).map Exit.role).Nodup
  own : ∀ exit ∈ pipeline.posted schedule, ∃ worker ∈ (pipeline.run schedule).crew.workers,
    worker.role = exit.role ∧ worker.outcome = some exit.outcome
  order : pipeline.posted schedule = pipeline.heard schedule ++ (pipeline.run schedule).mailbox
  flag : (pipeline.run schedule).crew.context.aborted = (pipeline.heard schedule).any Exit.isError
  first : ∀ exit, (pipeline.heard schedule).find? Exit.isError = some exit →
    ∃ before after, schedule = before ++ after ∧
      (pipeline.run before).crew.context.aborted = false ∧
        ∃ worker ∈ (pipeline.run before).crew.workers, worker.role = exit.role ∧
          worker.outcome = some exit.outcome
  all : ∀ outcome, (pipeline.run schedule).outcome = some outcome →
    (pipeline.run schedule).crew.allOver ∧ pipeline.posted schedule = pipeline.heard schedule ∧
      ((pipeline.heard schedule).map Exit.role).Perm (Crew.roles stages)
  error : ∀ outcome, (pipeline.run schedule).outcome = some outcome →
    ((∃ problem, outcome = .error problem) ↔ ∃ exit ∈ pipeline.heard schedule, exit.isError)
  cause : ∀ problem, (pipeline.run schedule).outcome = some (.error problem) →
    ∃ exit failure, (pipeline.heard schedule).find? Exit.isError = some exit ∧
      exit.Told failure ∧ problem = .failed failure
  genuine : (∀ worker ∈ pipeline.crew.workers, worker.pause.Honest) →
    ∀ problem, (pipeline.run schedule).outcome = some (.error problem) → ¬ problem.IsAborted

section Reporting

variable {pipeline : Pipeline} {stages : Nat} {posted heard : List Exit}
  (h : pipeline.Reporting stages posted heard)

include h

/-- A run that has heard no error has no worker that failed. -/
theorem Reporting.succeeded {outcome : Except Problem Run.Report}
    (houtcome : pipeline.outcome = some outcome)
    (hnone : heard.findSome? Exit.failure = none) : pipeline.crew.Succeeded := by
  intro worker hworker
  obtain ⟨exit, hexit, hreported⟩ := h.told houtcome hworker
  cases hresult : exit.outcome with
  | ok deed => exact ⟨deed, hreported.trans (congrArg some hresult)⟩
  | error problem =>
      have hsilent := List.findSome?_eq_none_iff.mp hnone exit hexit
      simp [Exit.failure, hresult] at hsilent

end Reporting

end Pipeline

end GatedPipeline
