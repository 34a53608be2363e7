import GatedPipeline.Proofs.Worker.Aborted
import GatedPipeline.Proofs.Worker.Paced

/-!
The producer of an aborted run. An unpaced producer looks at the flag in front of every record: once
it is raised, no append begins. A paced one looks at it only where a record turned out not to be
due, so one that is behind its deadlines goes on appending until it has caught up with the clock,
and may end as if nothing had happened. Either of them is over after so many turns, and with an
error if records are left.
-/

namespace GatedPipeline

namespace Worker

/-- The worker has begun an append: its next turn is the append itself. -/
def writing : Worker → Bool
  | .producer ⟨_, .write _⟩ => true
  | _ => false

namespace Producer

/-- Where a producer counts from: its second reading, in steps of one interval. -/
def Counts (interval : Nat) (readings : List Nat) (producer : Producer) : Prop :=
  match producer.phase with
  | .begin => readings = []
  | .readStart _ given => given = interval ∧ readings.length = 1
  | .ready progress | .missed progress | .write progress =>
      progress.interval = interval ∧ readings[1]? = some progress.start
  | .over _ => True

/-- The attempt at the record at hand finds it due: the run is paced, and its deadline has come. -/
def Behind (count now : Nat) (producer : Producer) : Prop :=
  ∃ progress, producer.phase = .ready progress ∧ progress.index < count ∧ progress.interval ≠ 0 ∧
    ∃ time, due progress = .ok time ∧ time ≤ now

def begun (tally : Tally) (producer : Producer) : Nat :=
  tally.stamped 0 + (Worker.writing (.producer producer)).toNat

section

variable {config : Run.Config} {interval : Nat} {readings : List Nat} {pause : Pause}
  {producer : Producer} {context : Run.Context} {tally : Tally}

theorem Counts.turn (h : producer.Counts interval readings)
    (hinterval : context.config.interval = .ok interval) (now : Nat) :
    (producer.turn now context).2.Counts interval (readings ++ [now]) := by
  obtain ⟨pause, phase⟩ := producer
  cases phase with
  | begin =>
      obtain rfl : readings = [] := h
      simp only [Producer.turn, hinterval]
      split
      · trivial
      · exact ⟨rfl, rfl⟩
  | readStart appender given =>
      obtain ⟨rfl, hlength⟩ := h
      refine ⟨rfl, ?_⟩
      rw [List.getElem?_append_right (Nat.le_of_eq hlength), hlength]
      rfl
  | ready progress | missed progress | write progress =>
      obtain ⟨hgiven, hstart⟩ := h
      have hkept := start_kept hstart [now]
      simp only [Producer.turn]
      repeat' split
      all_goals first | exact ⟨hgiven, hkept⟩ | trivial
  | «over» outcome => trivial

/-- Paced or not. -/
theorem Lives.counts (h : Lives config pause readings producer)
    (hinterval : config.interval = .ok interval) : producer.Counts interval readings := by
  induction h with
  | start => rfl
  | turn _ context hconfig now ih => exact ih.turn (hconfig ▸ hinterval) now

/-- In an aborted run an append begins only where the producer is behind, and there it does. -/
theorem Follows.begun_turn (hvalid : tally.Valid config.stages config.count)
    (hconfig : context.config = config) (h : producer.Follows config tally)
    (haborted : context.aborted = true) (now : Nat) :
    (producer.Behind config.count now ∧
        (producer.turn now context).2.begun (producer.next now tally) =
          producer.begun tally + 1) ∨
      (¬ producer.Behind config.count now ∧
        (producer.turn now context).2.begun (producer.next now tally) =
          producer.begun tally) := by
  obtain ⟨pause, phase⟩ := producer
  have hidle : ∀ {phase : Phase}, (∀ progress, phase ≠ .ready progress) →
      ¬ Behind config.count now ⟨pause, phase⟩ := by
    rintro phase hphase ⟨progress, hready, -⟩
    exact hphase progress hready
  cases phase with
  | begin | missed progress =>
      refine .inr ⟨hidle (by rintro _ ⟨⟩), ?_⟩
      simp only [Producer.turn]
      repeat' split
      all_goals rfl
  | readStart appender given => exact .inr ⟨hidle (by rintro _ ⟨⟩), rfl⟩
  | ready progress =>
      have hindex := h.index
      have hproduced := hvalid.produced
      simp only [Producer.turn, hconfig]
      split
      · rename_i hlast
        refine .inr ⟨?_, rfl⟩
        rintro ⟨_, ⟨⟩, hless, -⟩
        exact absurd hlast (Nat.ne_of_lt hless)
      · rename_i hmore
        split
        · rename_i hunpaced
          refine .inr ⟨?_, rfl⟩
          rintro ⟨_, ⟨⟩, -, hpaced, -⟩
          exact hpaced hunpaced
        · rename_i hpaced
          split
          · rename_i fault hfault
            refine .inr ⟨?_, rfl⟩
            rintro ⟨_, ⟨⟩, -, -, time, hdue, -⟩
            cases hfault.symm.trans hdue
          · rename_i time hdue
            split
            · rename_i hreached
              exact .inl ⟨⟨progress, rfl, by omega, hpaced, time, hdue, hreached⟩, rfl⟩
            · rename_i hearly
              refine .inr ⟨?_, rfl⟩
              rintro ⟨_, ⟨⟩, -, -, other, hother, hreached⟩
              obtain rfl := Except.ok.inj (hdue.symm.trans hother)
              exact hearly hreached
  | write progress =>
      -- what the append counts it has begun before
      refine .inr ⟨hidle (by rintro _ ⟨⟩), ?_⟩
      have hwritten : ∀ after : Producer, Worker.writing (.producer after) = false →
          after.begun (tally.stamp 0 now) = begun tally ⟨pause, .write progress⟩ := by
        intro after hafter
        simp only [begun, hafter, Tally.stamped_stamp, if_true, Bool.toNat_false, Nat.add_zero]
        rfl
      apply hwritten
      simp only [Producer.turn]
      repeat' split
      all_goals rfl
  | «over» outcome => exact .inr ⟨hidle (by rintro _ ⟨⟩), rfl⟩

end

end Producer

end Worker

namespace Crew

open Worker

/-- The records of a crew of which the append has begun: those in the log, and the one that the
producer is about to append. -/
def begun (crew : Crew) (stages : Nat) : Nat :=
  crew.context.log.appended + ((crew.workers[stages]?).any Worker.writing).toNat

theorem appended_le_begun (crew : Crew) (stages : Nat) :
    crew.context.log.appended ≤ crew.begun stages := Nat.le_add_right _ _

structure Produces (crew : Crew) (config : Run.Config) (pause : Pause) (readings : List Nat)
    (producer : Producer) : Prop where
  worker : crew.workers[config.stages]? = some (.producer producer)
  lives : producer.Lives config pause readings

theorem readingsOf_single (index : Nat) (step : Step) :
    readingsOf index [step] = (step.reading index).toList := by
  cases step with
  | work other now =>
      simp only [readingsOf, Step.reading, List.filterMap_cons, List.filterMap_nil]
      split <;> simp_all
  | abort => rfl

theorem start_produces (context : Run.Context) (pause : Role → Pause) :
    (start context pause).Produces context.config (pause .producer) []
      (.start (pause .producer)) := by
  refine ⟨?_, .start⟩
  simp [start, roles, Worker.start]

/-- At one of the later turns of the producer the clock has come to the deadline of record `index`.
The producer counts from its second turn. -/
def Overdue (config : Run.Config) (before later : List Nat) (index : Nat) : Prop :=
  ∃ interval start now, config.interval = .ok interval ∧ 0 < interval ∧
    (before ++ later)[1]? = some start ∧ now ∈ later ∧ start + index * interval ≤ now

section Overdue

variable {config : Run.Config} {before first second : List Nat} {index : Nat}

theorem Overdue.sooner (h : Overdue config before first index) (second : List Nat) :
    Overdue config before (first ++ second) index := by
  obtain ⟨interval, start, now, hinterval, hpositive, hstart, hnow, hdue⟩ := h
  refine ⟨interval, start, now, hinterval, hpositive, ?_, List.mem_append_left second hnow, hdue⟩
  rw [← List.append_assoc]
  exact Producer.start_kept hstart second

theorem Overdue.later (h : Overdue config (before ++ first) second index) :
    Overdue config before (first ++ second) index := by
  obtain ⟨interval, start, now, hinterval, hpositive, hstart, hnow, hdue⟩ := h
  refine ⟨interval, start, now, hinterval, hpositive, ?_, List.mem_append_right first hnow, hdue⟩
  rw [← List.append_assoc]
  exact hstart

end Overdue

section InStep

variable {crew : Crew} {config : Run.Config} {place : Storage.Place} {tally : Tally} {pause : Pause}
  {readings : List Nat} {producer : Producer} (h : crew.InStep config place tally)
  (hproduces : crew.Produces config pause readings producer)

include h in
/-- No record is appended by anyone else's turn. -/
theorem InStep.stamped_beside (hworker : crew.workers[config.stages]? = some (.producer producer))
    {index : Nat} (hindex : index ≠ config.stages) (now : Nat) :
    (crew.next tally (.work index now)).stamped 0 = tally.stamped 0 := by
  cases hother : crew.workers[index]? with
  | none => simp only [Crew.next, hother]
  | some other =>
      have hrole : other.role ≠ .producer := h.role_ne hother hworker hindex
      have hturn := ((h.follows other (List.mem_of_getElem? hother)).turn now h.count h.layout
        h.valid h.shows).turn
      simp only [Crew.next, hother]
      exact hturn.others.2.2.1 hrole

include h hproduces

theorem Produces.step (step : Step) :
    (crew.step step).Produces config pause (readings ++ readingsOf config.stages [step])
      ((step.reading config.stages).elim producer fun now =>
        (producer.turn now crew.context).2) := by
  have hafter := worker_step hproduces.worker step
  rw [readingsOf_single]
  cases hreading : step.reading config.stages with
  | none =>
      rw [hreading] at hafter
      refine ⟨hafter, ?_⟩
      rw [Option.toList_none, List.append_nil]
      exact hproduces.lives
  | some now =>
      rw [hreading] at hafter
      exact ⟨hafter, hproduces.lives.turn crew.context h.shows.config now⟩

theorem Produces.run (steps : List Step) : ∃ after,
    (crew.run steps).Produces config pause (readings ++ readingsOf config.stages steps) after := by
  induction steps generalizing crew tally readings producer with
  | nil =>
      rw [readingsOf, List.filterMap_nil, List.append_nil]
      exact ⟨producer, hproduces⟩
  | cons step rest ih =>
      rw [readingsOf_cons, ← List.append_assoc]
      exact ih (h.step step) (hproduces.step h step)

theorem Produces.begun_eq : crew.begun config.stages = producer.begun tally := by
  rw [begun, h.shows.log.appended, hproduces.worker]
  rfl

/-- In an aborted run only the producer begins an append, and only where it is behind. -/
theorem Produces.begun_step (haborted : crew.context.aborted = true) (step : Step) :
    (∃ now, step.reading config.stages = some now ∧ producer.Behind config.count now ∧
        (crew.step step).begun config.stages = crew.begun config.stages + 1) ∨
      ((∀ now, step.reading config.stages = some now → ¬ producer.Behind config.count now) ∧
        (crew.step step).begun config.stages = crew.begun config.stages) := by
  rw [(hproduces.step h step).begun_eq (h.step step), hproduces.begun_eq h]
  cases step with
  | abort => exact .inr ⟨nofun, rfl⟩
  | work index now =>
      by_cases hindex : index = config.stages
      · subst hindex
        have hfollows : producer.Follows config tally :=
          h.follows _ (List.mem_of_getElem? hproduces.worker)
        have hnext : crew.next tally (.work config.stages now) = producer.next now tally := by
          simp only [Crew.next, hproduces.worker]
          rfl
        simp only [Step.reading, if_true, Option.elim_some, hnext]
        rcases hfollows.begun_turn h.valid h.shows.config haborted now with
          ⟨hbehind, hmore⟩ | ⟨hnot, hsame⟩
        · exact .inl ⟨now, rfl, hbehind, hmore⟩
        · exact .inr ⟨by rintro _ ⟨⟩; exact hnot, hsame⟩
      · refine .inr ⟨by simp [Step.reading, hindex], ?_⟩
        simp only [Step.reading, if_neg hindex, Option.elim_none, Producer.begun]
        congr 1
        exact h.stamped_beside hproduces.worker hindex now

/-- The record that such a step begins is due. -/
theorem Produces.overdue_step {interval : Nat} (hinterval : config.interval = .ok interval)
    (haborted : crew.context.aborted = true) {step : Step} {index : Nat}
    (hfirst : crew.begun config.stages ≤ index)
    (hlast : index < (crew.step step).begun config.stages) :
    Overdue config readings (readingsOf config.stages [step]) index := by
  rcases hproduces.begun_step h haborted step with ⟨now, hreading, hbehind, hmore⟩ | ⟨-, hsame⟩
  · obtain ⟨progress, hphase, -, hpaced, time, hdue, hreached⟩ := hbehind
    have hcounts := hproduces.lives.counts hinterval
    have hfollows : producer.Follows config tally :=
      h.follows _ (List.mem_of_getElem? hproduces.worker)
    have hbegun := hproduces.begun_eq h
    obtain ⟨held, phase⟩ := producer
    obtain rfl : phase = .ready progress := hphase
    obtain ⟨rfl, hstart⟩ := hcounts
    have hrecord : progress.index = tally.stamped 0 := hfollows.index
    have hindex : index = progress.index := by
      rw [hrecord]
      change _ = tally.stamped 0 + 0 at hbegun
      omega
    have hnow : now ∈ readingsOf config.stages [step] := by
      rw [readingsOf_single, hreading]
      exact List.mem_singleton_self now
    refine ⟨_, progress.start, now, hinterval, Nat.pos_of_ne_zero hpaced,
      Producer.start_kept hstart _, hnow, ?_⟩
    rw [hindex, ← Producer.due_exact hdue]
    exact hreached
  · omega

/-- All records that an aborted run still begins are due. -/
theorem Produces.overdue_run {interval : Nat} (hinterval : config.interval = .ok interval)
    (haborted : crew.context.aborted = true) (more : List Step) {index : Nat}
    (hfirst : crew.begun config.stages ≤ index)
    (hlast : index < (crew.run more).begun config.stages) :
    Overdue config readings (readingsOf config.stages more) index := by
  induction more generalizing crew tally readings producer with
  | nil => exact absurd hlast (Nat.not_lt.mpr hfirst)
  | cons step rest ih =>
      rw [readingsOf_cons]
      by_cases hnow : index < (crew.step step).begun config.stages
      · exact (hproduces.overdue_step h hinterval haborted hfirst hnow).sooner _
      · exact (ih (h.step step) (hproduces.step h step) (aborted_step haborted step)
          (Nat.le_of_not_lt hnow) hlast).later

/-- A turn of the producer in an aborted run takes one away from those it has left, if it has any.
-/
theorem Produces.left_step (haborted : crew.context.aborted = true) (now : Nat) :
    Worker.left config.count (.producer (producer.turn now crew.context).2) + 1 ≤
        Worker.left config.count (.producer producer) ∨
      Worker.left config.count (.producer (producer.turn now crew.context).2) = 0 := by
  have hworker := List.mem_of_getElem? hproduces.worker
  cases hover : Worker.outcome (.producer producer) with
  | none =>
      have hmoves : Worker.moves now crew.context (.producer producer) = true := by
        simp [Worker.moves, Worker.isOver, Worker.spinEnd, hover]
      exact .inl ((h.follows _ hworker).left_turn h.valid h.shows haborted hmoves)
  | some outcome =>
      have hsame : Worker.producer (producer.turn now crew.context).2 = .producer producer :=
        turn_over now crew.context hover
      right
      rw [hsame]
      simp [Worker.left, Worker.isOver, hover]

/-- So after so many turns it has none left. -/
theorem Produces.left_run (haborted : crew.context.aborted = true) (more : List Step) :
    ∃ after,
      (crew.run more).Produces config pause (readings ++ readingsOf config.stages more) after ∧
      Worker.left config.count (.producer after) ≤
        Worker.left config.count (.producer producer) - (readingsOf config.stages more).length := by
  induction more generalizing crew tally readings producer with
  | nil =>
      rw [readingsOf, List.filterMap_nil, List.append_nil]
      exact ⟨producer, hproduces, Nat.le_refl _⟩
  | cons step rest ih =>
      obtain ⟨after, hafter, hleft⟩ :=
        ih (h.step step) (hproduces.step h step) (aborted_step haborted step)
      rw [List.append_assoc, ← readingsOf_cons] at hafter
      refine ⟨after, hafter, ?_⟩
      rw [readingsOf_cons, readingsOf_single, List.length_append]
      cases hreading : step.reading config.stages with
      | none =>
          rw [hreading] at hleft
          simpa using hleft
      | some now =>
          rw [hreading] at hleft
          simp only [Option.elim_some, Option.toList_some, List.length_singleton] at hleft ⊢
          have hspent := hproduces.left_step h haborted now
          omega

end InStep

/-- What becomes of the records of an aborted run whose producer has taken turns with these
`readings`. An unpaced run gets no record but the one that is being appended, and a paced one only
such others as are due. By `behind` it does get one whenever the producer looks at the clock when it
is behind. By `returns` the producer is over after a bounded number of turns, every append that has
begun is done then, and if records are left it returns an error. -/
structure Halts (crew : Crew) (config : Run.Config) (readings : List Nat) : Prop where
  unpaced : config.throughput = none → ∀ more,
    (crew.run more).context.log.appended ≤ crew.begun config.stages
  overdue : ∀ more index, crew.begun config.stages ≤ index →
    index < (crew.run more).context.log.appended →
      Overdue config readings (readingsOf config.stages more) index
  behind : ∀ more producer, (crew.run more).workers[config.stages]? = some (.producer producer) →
    ∀ now, (((crew.run more).step (.work config.stages now)).begun config.stages =
        (crew.run more).begun config.stages + 1 ↔ producer.Behind config.count now)
  returns : ∀ more, 7 * config.count + 4 ≤ (readingsOf config.stages more).length →
    ∃ outcome, ((crew.run more).workers[config.stages]?).bind Worker.outcome = some outcome ∧
      (crew.run more).context.log.appended = (crew.run more).begun config.stages ∧
        ((crew.run more).context.log.appended < config.count →
          ∃ problem, outcome = .error problem)

/-- A producer that is over has ended with an error or appended all records. -/
theorem Produces.over {crew : Crew} {config : Run.Config} {place : Storage.Place} {tally : Tally}
    {pause : Pause} {readings : List Nat} {producer : Producer}
    (h : crew.InStep config place tally)
    (hproduces : crew.Produces config pause readings producer)
    (hnone : Worker.left config.count (.producer producer) = 0) :
    ∃ outcome, (crew.workers[config.stages]?).bind Worker.outcome = some outcome ∧
      crew.context.log.appended = crew.begun config.stages ∧
        (crew.context.log.appended < config.count → ∃ problem, outcome = .error problem) := by
  have hfollows : producer.Follows config tally :=
    h.follows _ (List.mem_of_getElem? hproduces.worker)
  have happended := h.shows.log.appended
  have hover : Worker.isOver (.producer producer) := by
    simp only [Worker.left] at hnone
    split at hnone
    · assumption
    · split at hnone <;> omega
  rw [begun, hproduces.worker]
  obtain ⟨held, phase⟩ := producer
  cases phase with
  | «over» outcome =>
      refine ⟨outcome.map Deed.produced, rfl, rfl, fun hless => ?_⟩
      cases outcome with
      | error problem => exact ⟨problem, rfl⟩
      | ok stats =>
          have hall : tally.stamped 0 = config.count := hfollows.2
          omega
  | _ => cases hover

/-- Once a run is aborted, an unpaced producer appends no record any more but the one it is about
to, and a paced one only as long as it is behind; with an error or with all records appended, it
returns. -/
theorem aborted_producer_halts {storage : Storage} {config : Run.Config} {context : Run.Context}
    (htree : storage.IsTree) (hcreate : Run.Context.create storage config = .ok context)
    (pause : Role → Pause) (steps : List Step)
    (haborted : ((start context pause).run steps).context.aborted = true) :
    ((start context pause).run steps).Halts config (readingsOf config.stages steps) := by
  obtain ⟨place, hfresh⟩ := Run.Context.create_fresh htree hcreate
  obtain ⟨interval, hinterval⟩ := (Run.Context.create_accepted hcreate).interval_ok
  have hstart := start_inStep hfresh pause
  have hproduces := start_produces context pause
  rw [hfresh.config] at hproduces
  obtain ⟨producer, hproduces⟩ := hproduces.run hstart steps
  have h := hstart.run steps
  rw [List.nil_append] at hproduces
  generalize (start context pause).run steps = crew at h haborted hproduces
  generalize (start context pause).tally .start steps = tally at h
  have hoverdue : ∀ more index, crew.begun config.stages ≤ index →
      index < (crew.run more).context.log.appended →
        Overdue config (readingsOf config.stages steps) (readingsOf config.stages more) index :=
    fun more index hfirst hlast => hproduces.overdue_run h hinterval haborted more hfirst
      (Nat.lt_of_lt_of_le hlast (appended_le_begun _ _))
  refine ⟨fun hunpaced more => ?_, hoverdue, fun more other hother now => ?_, fun more hlong => ?_⟩
  · apply Nat.le_of_not_lt
    intro hmore
    obtain ⟨interval, -, -, hgiven, hpositive, -⟩ :=
      hoverdue more _ (Nat.le_refl _) hmore
    rw [Run.Config.interval, hunpaced] at hgiven
    cases hgiven
    exact absurd hpositive (Nat.lt_irrefl 0)
  · obtain ⟨after, hafter⟩ := hproduces.run h more
    have hsame := hafter.worker.symm.trans hother
    simp only [Option.some.injEq, Worker.producer.injEq] at hsame
    subst hsame
    have hreading : (Step.work config.stages now).reading config.stages = some now := if_pos rfl
    rcases hafter.begun_step (h.run more) (aborted_run haborted more)
        (.work config.stages now) with ⟨_, hread, hbehind, hmore⟩ | ⟨hnot, hsame⟩
    · obtain rfl := Option.some.inj (hreading.symm.trans hread)
      exact iff_of_true hmore hbehind
    · rw [hsame]
      exact iff_of_false (by omega) (hnot now hreading)
  · obtain ⟨after, hafter, hleft⟩ := hproduces.left_run h haborted more
    have hbound := left_le h.count.1 (.producer producer)
    exact hafter.over (h.run more) (by omega)

/-- Two records, unpaced: a run that is aborted before the producer's first turn gets neither. -/
theorem aborted_producer_halts_unpaced : ∃ context,
    Run.Context.create .empty (.plain 1 2 "/out") = .ok context ∧
      let crew := (start context fun _ => .spinning).run [.abort]
      crew.Halts (.plain 1 2 "/out") [] ∧
        ∀ more, (crew.run more).context.log.appended = 0 := by
  have hshown : (Run.Context.create .empty (.plain 1 2 "/out")).toOption.map (fun context =>
      let crew := (start context fun _ => .spinning).run [.abort]
      (crew.context.aborted, crew.begun 1)) = some (true, 0) := by
    decide +kernel
  cases hcreate : Run.Context.create .empty (.plain 1 2 "/out") with
  | error problem => simp [hcreate, Except.toOption] at hshown
  | ok context =>
      simp only [hcreate, Except.toOption, Option.map_some, Option.some.injEq,
        Prod.mk.injEq] at hshown
      obtain ⟨haborted, hnone⟩ := hshown
      have hhalts := aborted_producer_halts Storage.empty_isTree hcreate _ _ haborted
      exact ⟨context, rfl, hhalts, fun more =>
        Nat.le_zero.mp (Nat.le_trans (hhalts.unpaced rfl more) (Nat.le_of_eq hnone))⟩

/-- One record, paced: it is due at once, so it is appended, and the producer returns no error. -/
theorem aborted_producer_halts_behind : ∃ context,
    Run.Context.create .empty ⟨1, 1, some 1, "/out", 0, 500000, 1000000000, [], []⟩ = .ok context ∧
      let crew := (start context fun _ => .spinning).run [.abort]
      let later := crew.run (List.replicate 5 (.work 1 0))
      crew.context.aborted = true ∧ crew.begun 1 = 0 ∧ later.context.log.appended = 1 ∧
        ((later.workers[1]?).bind Worker.outcome).any Except.isOk = true := by
  have hshown : (Run.Context.create .empty
      ⟨1, 1, some 1, "/out", 0, 500000, 1000000000, [], []⟩).toOption.map (fun context =>
        let crew := (start context fun _ => .spinning).run [.abort]
        let later := crew.run (List.replicate 5 (.work 1 0))
        (crew.context.aborted, crew.begun 1, later.context.log.appended,
          ((later.workers[1]?).bind Worker.outcome).any Except.isOk)) =
      some (true, 0, 1, true) := by
    decide +kernel
  cases hcreate : Run.Context.create .empty
      ⟨1, 1, some 1, "/out", 0, 500000, 1000000000, [], []⟩ with
  | error problem => simp [hcreate, Except.toOption] at hshown
  | ok context =>
      simp only [hcreate, Except.toOption, Option.map_some, Option.some.injEq,
        Prod.mk.injEq] at hshown
      exact ⟨context, rfl, hshown⟩

end Crew

end GatedPipeline
