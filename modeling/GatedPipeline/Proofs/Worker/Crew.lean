import GatedPipeline.Proofs.Worker.Standing

/-!
All workers of a run at once. Whatever steps a crew takes, and in whatever order, some tally of
what has been done belongs to its shared state and to the variables of every worker.
-/

namespace GatedPipeline.Crew

open Worker

theorem roles_nodup (stages : Nat) : (roles stages).Nodup := by
  simp only [roles, List.nodup_append, List.nodup_cons, List.not_mem_nil, not_false_eq_true,
    List.nodup_nil, and_self, List.mem_singleton, true_and]
  refine ⟨?_, ?_⟩
  · apply (List.nodup_reverse.mpr List.nodup_range).map
    intro one other h
    simpa using h
  · simp

theorem mem_roles {stages : Nat} {role : Role} : role ∈ roles stages ↔
    role = .producer ∨ ∃ stage, 1 ≤ stage ∧ stage ≤ stages ∧ role = .stage stage := by
  simp only [roles, List.mem_append, List.mem_map, List.mem_reverse, List.mem_range,
    List.mem_singleton]
  constructor
  · rintro (⟨index, hindex, rfl⟩ | rfl)
    · exact .inr ⟨index + 1, by omega, by omega, rfl⟩
    · exact .inl rfl
  · rintro (rfl | ⟨stage, hfirst, hlast, rfl⟩)
    · exact .inr rfl
    · exact .inl ⟨stage - 1, by omega, by rw [Nat.sub_add_cancel hfirst]⟩

/-- A crew and a tally of what it has done. The shared state has what the tally says, and the
variables of every worker agree with it, so that a step of the crew is a turn of the tally. -/
structure InStep (crew : Crew) (config : Run.Config) (place : Storage.Place) (tally : Tally) :
    Prop where
  count : 0 < config.count ∧ config.count < wordLimit
  layout : (Layout.mk config.stages).Valid
  shows : crew.context.Shows config place tally
  valid : tally.Valid config.stages config.count
  follows : ∀ worker ∈ crew.workers, worker.Follows config crew.context.gates tally
  roles : crew.workers.map Worker.role = roles config.stages

def next (crew : Crew) (tally : Tally) : Step → Tally
  | .work index now =>
      match crew.workers[index]? with
      | none => tally
      | some worker => worker.next now tally
  | .abort => tally

def tally (crew : Crew) (before : Tally) : List Step → Tally
  | [] => before
  | step :: rest => (crew.step step).tally (crew.next before step) rest

section InStep

variable {crew : Crew} {config : Run.Config} {place : Storage.Place} {tally : Tally}
  (h : crew.InStep config place tally)

include h

/-- No two workers have the same role. -/
theorem InStep.role_ne {index other : Nat} {worker another : Worker}
    (hworker : crew.workers[index]? = some worker) (hanother : crew.workers[other]? = some another)
    (hne : index ≠ other) : worker.role ≠ another.role := by
  intro hrole
  have hnodup := roles_nodup config.stages
  rw [← h.roles] at hnodup
  have hfirst : (crew.workers.map Worker.role)[index]? = some worker.role := by simp [hworker]
  have hsecond : (crew.workers.map Worker.role)[other]? = some worker.role := by
    simp [hanother, hrole]
  obtain ⟨hlt, -⟩ := List.getElem?_eq_some_iff.mp hfirst
  exact hne ((List.getElem?_inj hlt hnodup).mp (hfirst.trans hsecond.symm))

theorem InStep.work {index : Nat} {worker : Worker} (hworker : crew.workers[index]? = some worker)
    (now : Nat) : InStep ⟨(worker.turn now crew.context).1,
      crew.workers.set index (worker.turn now crew.context).2⟩ config place
        (worker.next now tally) := by
  have hmember := List.mem_of_getElem? hworker
  have hturn := (h.follows worker hmember).turn now h.count h.layout h.valid h.shows
  have hroles : (crew.workers.set index (worker.turn now crew.context).2).map Worker.role =
      crew.workers.map Worker.role := by
    rw [List.map_set, role_turn]
    apply List.ext_getElem?
    intro other
    rw [List.getElem?_set]
    by_cases hsame : index = other
    · subst hsame
      obtain ⟨hlt, hget⟩ := List.getElem?_eq_some_iff.mp hworker
      simp [hlt, hget]
    · simp [hsame]
  refine ⟨h.count, h.layout, hturn.shows, h.valid.turn hturn.turn, fun other hother => ?_,
    hroles.trans h.roles⟩
  obtain ⟨at', hat⟩ := List.mem_iff_getElem?.mp hother
  rw [List.getElem?_set] at hat
  by_cases hsame : index = at'
  · subst hsame
    obtain ⟨hlt, -⟩ := List.getElem?_eq_some_iff.mp hworker
    simp only [if_true, hlt] at hat
    cases hat
    exact hturn.follows
  · rw [if_neg hsame] at hat
    have hstands := h.follows other (List.mem_of_getElem? hat)
    exact hstands.others hturn.keeps hturn.turn (Ne.symm (h.role_ne hworker hat hsame))

theorem InStep.step (step : Step) :
    (crew.step step).InStep config place (crew.next tally step) := by
  obtain ⟨context, workers⟩ := crew
  cases step with
  | work index now =>
      cases hworker : workers[index]? with
      | none =>
          simp only [Crew.step, Crew.next, hworker]
          exact h
      | some worker =>
          simp only [Crew.step, Crew.next, hworker]
          exact h.work hworker now
  | abort => exact ⟨h.count, h.layout, h.shows.abort, h.valid, h.follows, h.roles⟩

theorem InStep.run (steps : List Step) :
    (crew.run steps).InStep config place (crew.tally tally steps) := by
  induction steps generalizing crew tally with
  | nil => exact h
  | cons step rest ih => exact ih (h.step step)

theorem InStep.length : crew.workers.length = config.stages + 1 := by
  have hlength := congrArg List.length h.roles
  simpa [Crew.roles] using hlength

/-- Every slot of a record has its worker. -/
theorem InStep.worker_of_slot {slot : Nat} (hslot : slot ≤ config.stages) :
    ∃ (index : Nat) (worker : Worker), crew.workers[index]? = some worker ∧ worker.slot = slot := by
  obtain ⟨role, hrole, hat⟩ : ∃ role ∈ Crew.roles config.stages, role.slot = slot := by
    cases slot with
    | zero => exact ⟨.producer, mem_roles.mpr (.inl rfl), rfl⟩
    | succ number =>
        exact ⟨.stage (number + 1), mem_roles.mpr (.inr ⟨_, by omega, hslot, rfl⟩), rfl⟩
  rw [← h.roles] at hrole
  obtain ⟨worker, hworker, rfl⟩ := List.mem_map.mp hrole
  obtain ⟨index, hindex⟩ := List.mem_iff_getElem?.mp hworker
  exact ⟨index, worker, hindex, hat⟩

/-- What the tally gains when a worker works is one turn of that worker. -/
theorem InStep.turn (index now : Nat) : ∃ role,
    Tally.Turn config.stages config.count role now tally (crew.next tally (.work index now)) := by
  cases hworker : crew.workers[index]? with
  | none =>
      simp only [Crew.next, hworker]
      exact ⟨.producer, .rest⟩
  | some worker =>
      have hfollows := h.follows worker (List.mem_of_getElem? hworker)
      simp only [Crew.next, hworker]
      exact ⟨worker.role, (hfollows.turn now h.count h.layout h.valid h.shows).turn⟩

theorem InStep.stamped_run (steps : List Step) (slot : Nat) :
    tally.stamped slot ≤ (crew.tally tally steps).stamped slot := by
  induction steps generalizing crew tally with
  | nil => exact Nat.le_refl _
  | cons step rest ih =>
      refine Nat.le_trans ?_ (ih (h.step step))
      cases step with
      | work index now =>
          obtain ⟨role, hturn⟩ := h.turn index now
          exact hturn.others.1 slot
      | abort => exact Nat.le_refl _

end InStep

theorem start_inStep {config : Run.Config} {context : Run.Context} {place : Storage.Place}
    (h : context.Fresh config place) (pause : Role → Pause) :
    (start context pause).InStep config place .start := by
  have hpin : ∀ (roles : List Role) (context : Run.Context),
      context.Shows config place .start →
      (roles.foldl (fun context role => pin context (core context.config role)) context).Shows
        config place .start := by
    intro roles
    induction roles with
    | nil => exact fun _ hshows => hshows
    | cons role rest ih =>
        intro context hshows
        apply ih _
        simp only [pin]
        generalize (core context.config role).toList.flatMap pinNotes = events
        induction events generalizing context with
        | nil => exact hshows
        | cons event events ihEvents => exact ihEvents _ (hshows.say event)
  constructor
  case count => exact ⟨h.counted, h.small⟩
  case layout => exact h.valid
  case shows => exact hpin _ context h.shows
  case valid => exact Tally.start_valid _ _
  case follows =>
    intro worker hworker
    simp only [start, h.config, List.mem_map] at hworker
    obtain ⟨role, hrole, rfl⟩ := hworker
    rcases mem_roles.mp hrole with rfl | ⟨stage, hfirst, hlast, rfl⟩
    · rfl
    · exact ⟨hfirst, hlast, rfl, rfl⟩
  case roles =>
    simp only [start, h.config, List.map_map]
    refine (List.map_congr_left fun role _ => ?_).trans (List.map_id _)
    cases role <;> rfl

end GatedPipeline.Crew
