import GatedPipeline.Proofs.Worker.History

/-!
The order of the stages. From a run's start on, in whatever order its workers take turns, wherever a
wait fails and whenever the run is aborted: a gate stands at a record only after all slots up to its
stage's have been stamped, a stage stamps only what the stage before it has let through, every word
of a record is written at most once and by the worker whose word it is, and no gate is asked to move
backwards.
-/

namespace GatedPipeline.Crew

open Worker

/-- A time slot of a record has been stamped: the history has a store to its word. -/
def Stamped (layout : Layout) (history : List (Role × Log.Store)) (index slot : Nat) : Prop :=
  writesAt history (layout.bodyAt index + (slot + 1) * 8) ≠ []

/-- What holds of a crew of so many stages at every moment, with the `history` of its stores. Gates
that are not open count as `-1`. A gate at a record says that all slots up to its stage are stamped,
and a stage stamps a record only when it is committed and the gate before has let it through, so
that the gates descend from one stage to the next. Every word of a record is written at most once,
by the worker whose word it is, and the word read there is what was written. A record announces the
same number of records to come whatever follows, and no gate is ever moved backwards. -/
structure InOrder (crew : Crew) (stages : Nat) (history : List (Role × Log.Store)) : Prop where
  layout : crew.context.log.layout = ⟨stages⟩
  completed : ∀ stage (index : Nat), 1 ≤ stage → stage ≤ stages →
    (index : Int) ≤ crew.context.gate stage →
      ∀ slot ≤ stage, Stamped crew.context.log.layout history index slot
  first : ∀ index, Stamped crew.context.log.layout history index 1 →
    index < crew.context.log.committed
  later : ∀ stage index, 2 ≤ stage → stage ≤ stages →
    Stamped crew.context.log.layout history index stage →
      (index : Int) ≤ crew.context.gate (stage - 1)
  lowest : -1 ≤ crew.context.gate stages
  descending : ∀ stage, 1 ≤ stage → stage < stages →
    crew.context.gate (stage + 1) ≤ crew.context.gate stage
  highest : crew.context.gate 1 ≤ (crew.context.log.committed : Int) - 1
  counted : crew.context.log.appended = crew.context.log.committed
  once : ∀ index word, word < crew.context.log.layout.words →
    (writesAt history (crew.context.log.layout.bodyAt index + word * 8)).length ≤ 1 ∧
      ∀ write ∈ writesAt history (crew.context.log.layout.bodyAt index + word * 8),
        write.1 = Role.ofWord word
  read : ∀ index word, word < crew.context.log.layout.words →
    crew.context.log.word (crew.context.log.layout.bodyAt index + word * 8) =
      ((writesAt history (crew.context.log.layout.bodyAt index + word * 8)).getLast?.map
        Prod.snd).getD 0
  announced : ∀ index < crew.context.log.committed, ∀ more : List Step,
    ((crew.run more).context.log.record (crew.context.log.layout.viewAt index)).remaining =
      (crew.context.log.record (crew.context.log.layout.viewAt index)).remaining
  forward : ∀ stage duty entry, .stage stage ∈ crew.workers → stage.phase = .publish duty entry →
    duty.gate.read crew.context.storage ≤ Stage.gateValue entry ∧
      (crew.context.publish duty.gate (Stage.gateValue entry)).2 = .ok ()

section InStep

variable {crew : Crew} {config : Run.Config} {place : Storage.Place} {tally : Tally}
  {history : List (Role × Log.Store)} (h : crew.InStep config place tally)

include h

theorem InStep.committed : crew.context.log.committed = tally.stamped 0 :=
  Log.committed_eq h.shows.log.sound h.shows.log.framed h.shows.log.fits

/-- A stage at its publish has stamped one record more than its gate says. -/
private theorem InStep.forward {stage : Stage} {duty : Stage.Duty} {entry : Entry}
    (hworker : .stage stage ∈ crew.workers) (hphase : stage.phase = .publish duty entry) :
    duty.gate.read crew.context.storage ≤ Stage.gateValue entry ∧
      (crew.context.publish duty.gate (Stage.gateValue entry)).2 = .ok () := by
  obtain ⟨number, pause, phase⟩ := stage
  obtain ⟨hfirst, hlast, hfollows⟩ := h.follows _ hworker
  simp only at hphase hfirst hlast
  subst hphase
  obtain ⟨halong, hentry⟩ := hfollows
  simp only at hentry
  have hstamped := halong.stamped
  have hproduced := h.valid.stamped_mono (Nat.zero_le number) hlast
  have hsmall : (tally.completed number : Int) < signedLimit :=
    h.shows.small (by simp only at hstamped; omega)
  have hvalue : Stage.gateValue entry = (tally.completed number : Int) := by
    rw [hentry]
    exact Word.signed_ofNat hsmall
  obtain ⟨hread, after, hpublish, -⟩ := h.shows.publish hfirst hlast halong.gate
  rw [hvalue, hpublish]
  exact ⟨hread, rfl⟩

private theorem InStep.inOrder (hhistory : ∀ index word, word < config.stages + 2 →
    tally.writes config.count index word =
      writesAt history (Layout.bodyAt ⟨config.stages⟩ index + word * 8)) :
    crew.InOrder config.stages history := by
  have hlayout := h.shows.layout
  have hcommitted := h.committed
  have hsome := h.layout.some_stage
  have hgates := h.shows.gates
  have hthrough : ∀ stage, 2 ≤ stage → stage ≤ config.stages →
      tally.stamped stage ≤ tally.completed (stage - 1) := by
    intro stage hfirst hlast
    have horder := h.valid.order stage (by omega) hlast
    rwa [Tally.through_pos _ (by omega)] at horder
  have hstamped : ∀ index slot, slot ≤ config.stages →
      (Stamped ⟨config.stages⟩ history index slot ↔ index < tally.stamped slot) :=
    fun index slot hslot => by
      rw [Stamped, ← hhistory index (slot + 1) (by omega), Tally.writes_slot]
  have hfirst := h.valid.order 1 (Nat.le_refl _) hsome
  have hgate := hgates 1 (Nat.le_refl _) hsome
  have hown := h.valid.own 1 (Nat.le_refl _) hsome
  constructor
  case layout => exact hlayout
  case completed =>
    rw [hlayout]
    intro stage index hstage hlast hpassed slot hslot
    rw [hstamped index slot (by omega)]
    rw [hgates stage hstage hlast] at hpassed
    have hmono := h.valid.stamped_mono hslot hlast
    have hown := h.valid.own stage hstage hlast
    omega
  case first =>
    rw [hlayout]
    intro index hstamp
    rw [hstamped index 1 hsome] at hstamp
    rw [hcommitted]
    exact Nat.lt_of_lt_of_le hstamp hfirst
  case later =>
    rw [hlayout]
    intro stage index hstage hlast hstamp
    rw [hstamped index stage hlast] at hstamp
    rw [hgates (stage - 1) (by omega) (by omega)]
    have hbefore := hthrough stage hstage hlast
    omega
  case lowest =>
    rw [hgates config.stages hsome (Nat.le_refl _)]
    omega
  case descending =>
    intro stage hstage hlast
    rw [hgates stage hstage (by omega), hgates (stage + 1) (by omega) hlast]
    have hbefore := hthrough (stage + 1) (by omega) hlast
    have hown := h.valid.own (stage + 1) (by omega) hlast
    simp only [Nat.add_sub_cancel] at hbefore
    omega
  case highest =>
    rw [hcommitted, hgate]
    change tally.stamped 1 ≤ tally.stamped 0 at hfirst
    omega
  case counted => rw [hcommitted, h.shows.log.appended]
  case once =>
    rw [hlayout]
    intro index word hword
    rw [← hhistory index word hword]
    exact tally.writes_once config.count index word
  case read =>
    intro index word hword
    rw [h.shows.log.content index word hword]
    rw [hlayout] at hword ⊢
    rw [← hhistory index word hword]
    exact tally.content_writes config.count index word
  case announced =>
    rw [hcommitted, hlayout]
    intro index hindex more
    have hlater := h.run more
    have hmore : index < (crew.tally tally more).stamped 0 :=
      Nat.lt_of_lt_of_le hindex (h.stamped_run more 0)
    rw [h.shows.remaining hindex, hlater.shows.remaining hmore]
  case forward => exact fun stage duty entry => h.forward

end InStep

/-- On a context that has just been made, the workers stay in order: the pauses may fail at any
poll, the run may be aborted between any two turns, and the turns come in any order. -/
theorem stages_in_order {storage : Storage} {config : Run.Config} {context : Run.Context}
    (htree : storage.IsTree) (hcreate : Run.Context.create storage config = .ok context)
    (pause : Role → Pause) (steps : List Step) :
    ((start context pause).run steps).InOrder config.stages
      ((start context pause).history steps) := by
  obtain ⟨place, hfresh⟩ := Run.Context.create_fresh htree hcreate
  have hstart := start_inStep hfresh pause
  apply (hstart.run steps).inOrder
  intro index word hword
  rw [hstart.writes_run hword index steps, Tally.writes_start, List.nil_append]

/-- So many turns of each of a producer and two stages, one after the other. -/
def rounds (turns : Nat) : List Step :=
  (List.range turns).flatMap fun turn => [.work 2 turn, .work 1 turn, .work 0 turn]

/-- Two records and two stages: the run is aborted when the second stage has completed one of
them. -/
theorem stages_in_order_two_stages : ∃ context,
    Run.Context.create .empty (.plain 2 2 "/out") = .ok context ∧
      let crew := (start context fun _ => .spinning).run (rounds 12 ++ [.abort])
      crew.InOrder 2 ((start context fun _ => .spinning).history (rounds 12 ++ [.abort])) ∧
        crew.context.gate 1 = 1 ∧ crew.context.gate 2 = 0 ∧ crew.context.log.committed = 2 := by
  have hshown : (Run.Context.create .empty (.plain 2 2 "/out")).toOption.map (fun context =>
      let crew := (start context fun _ => .spinning).run (rounds 12 ++ [.abort])
      (crew.context.gate 1, crew.context.gate 2, crew.context.log.committed)) = some (1, 0, 2) := by
    decide +kernel
  cases hcreate : Run.Context.create .empty (.plain 2 2 "/out") with
  | error problem => simp [hcreate, Except.toOption] at hshown
  | ok context =>
      simp only [hcreate, Except.toOption, Option.map_some, Option.some.injEq,
        Prod.mk.injEq] at hshown
      exact ⟨context, rfl, stages_in_order Storage.empty_isTree hcreate _ _, hshown⟩

end GatedPipeline.Crew
