import GatedPipeline.Proofs.Worker.Shared

/-!
Each worker beside a tally: its own variables follow from the tally and from the place it has come
to in its loop. A turn of a worker takes both to such a pair again.
-/

namespace GatedPipeline

namespace Worker

namespace Producer

structure Along (tally : Tally) (layout : Layout) (progress : Progress) : Prop where
  index : progress.index = tally.stamped 0
  appender : progress.appender = layout.appenderAt (tally.stamped 0)

/-- The producer's variables, wherever it has come to. -/
def Follows (config : Run.Config) (tally : Tally) (producer : Producer) : Prop :=
  match producer.phase with
  | .begin => tally.stamped 0 = 0
  | .readStart appender _ => tally.stamped 0 = 0 ∧ appender = ⟨0, 0⟩
  | .ready progress | .missed progress => Along tally ⟨config.stages⟩ progress
  | .write progress => Along tally ⟨config.stages⟩ progress ∧ tally.stamped 0 < config.count
  | .over (.ok stats) => stats.written = config.count ∧ tally.stamped 0 = config.count
  | .over (.error _) => True

theorem Follows.mono {config : Run.Config} {tally tally' : Tally} {producer : Producer}
    (h : producer.Follows config tally) (hproduced : tally'.stamped 0 = tally.stamped 0) :
    producer.Follows config tally' := by
  obtain ⟨pause, phase⟩ := producer
  have halong : ∀ progress, Along tally ⟨config.stages⟩ progress →
      Along tally' ⟨config.stages⟩ progress := fun progress along =>
    ⟨along.index.trans hproduced.symm, by rw [hproduced]; exact along.appender⟩
  cases phase with
  | begin => exact hproduced.trans h
  | readStart appender interval => exact ⟨hproduced.trans h.1, h.2⟩
  | ready progress | missed progress => exact halong progress h
  | write progress => exact ⟨halong progress h.1, hproduced ▸ h.2⟩
  | «over» outcome =>
      cases outcome with
      | error problem => trivial
      | ok stats => exact ⟨h.1, hproduced.trans h.2⟩

def next (now : Nat) (tally : Tally) (producer : Producer) : Tally :=
  match producer.phase with
  | .write _ => tally.stamp 0 now
  | _ => tally

end Producer

namespace Stage

/-- What a stage knows between opening its gates and its end: its gates, how many records it has
read, and how many it has stamped. -/
structure Along (config : Run.Config) (gates : Registry) (tally : Tally) (number : Nat)
    (duty : Duty) (read stamped : Nat) : Prop where
  gate : gates.find (Gate.ofStage number) = some duty.gate
  previous : if number = 1 then duty.previous = none
    else ∃ previous, duty.previous = some previous ∧
      gates.find (Gate.ofStage (number - 1)) = some previous
  tailer : duty.tailer.Stands ⟨config.stages⟩ read
  processed : duty.processed = tally.completed number
  stamped : tally.stamped number = stamped

/-- The stage's variables, wherever it has come to. -/
def Follows (config : Run.Config) (gates : Registry) (tally : Tally) (stage : Stage) : Prop :=
  let number := stage.number
  let done := tally.completed number
  let current (duty : Duty) (entry : Entry) (stamped : Nat) : Prop :=
    Along config gates tally number duty (done + 1) stamped ∧
      entry = Layout.entryAt ⟨config.stages⟩ done
  match stage.phase with
  | .begin => done = 0 ∧ tally.stamped number = 0
  | .openPrevious gate => (done = 0 ∧ tally.stamped number = 0) ∧
      number ≠ 1 ∧ gates.find (Gate.ofStage number) = some gate
  | .awaitRecord duty | .missedRecord duty =>
      Along config gates tally number duty done done ∧ done < config.count
  | .awaitPrevious duty entry | .missedPrevious duty entry =>
      current duty entry done ∧ number ≠ 1 ∧ done < tally.stamped 0
  | .stamp duty entry => current duty entry done ∧ done < tally.through (number - 1)
  | .startDelay duty entry _ | .spin duty entry _ | .publish duty entry =>
      current duty entry (done + 1)
  | .published duty entry => Along config gates tally number duty done done ∧ 1 ≤ done ∧
      entry = Layout.entryAt ⟨config.stages⟩ (done - 1)
  | .over (.ok stats) => stats = ⟨number, config.count, config.count - 1⟩ ∧
      done = config.count ∧ tally.stamped number = config.count
  | .over (.error _) => True

theorem number_turn (now : Nat) (context : Run.Context) (stage : Stage) :
    (stage.turn now context).2.number = stage.number := by
  obtain ⟨number, pause, phase⟩ := stage
  cases phase <;> simp only [turn]
  all_goals repeat' split
  all_goals rfl

def next (now : Nat) (tally : Tally) (stage : Stage) : Tally :=
  match stage.phase with
  | .stamp .. => tally.stamp stage.number now
  | .publish .. => tally.complete stage.number
  | _ => tally

end Stage

/-- A turn took the shared state and the tally to such a pair again, and left what follows from
them. -/
structure Advances (config : Run.Config) (place : Storage.Place) (role : Role) (now : Nat)
    (context : Run.Context) (tally : Tally) (after : Run.Context) (next : Tally)
    (follows : Registry → Tally → Prop) : Prop where
  turn : Tally.Turn config.stages config.count role now tally next
  shows : after.Shows config place next
  keeps : context.Keeps after
  follows : follows after.gates next

section Turn

variable {config : Run.Config} {place : Storage.Place} {context : Run.Context} {tally : Tally}
  {role : Role} {now : Nat}

/-- A turn that leaves the tally as it is, and the gates too. -/
theorem Advances.rest {after : Run.Context} {follows : Registry → Tally → Prop}
    (hshows : after.Shows config place tally) (hgates : after.gates = context.gates)
    (hfollows : follows context.gates tally) :
    Advances config place role now context tally after tally follows :=
  ⟨.rest, hshows, fun _ _ hfound => hgates ▸ hfound, hgates ▸ hfollows⟩

/-! ### The producer -/

section Producer

variable (hvalid : tally.Valid config.stages config.count)
  (hlayout : (Layout.mk config.stages).Valid) (hshows : context.Shows config place tally)

include hvalid hlayout hshows

theorem Producer.Follows.turn (now : Nat) {producer : Producer}
    (h : producer.Follows config tally) :
    Advances config place .producer now context tally (producer.turn now context).1
      (producer.next now tally) fun _ next =>
        (producer.turn now context).2.Follows config next := by
  obtain ⟨pause, phase⟩ := producer
  cases phase with
  | begin =>
      simp only [Producer.turn]
      split
      · exact .rest hshows rfl trivial
      · cases htake : context.takeAppender with
        | mk after result =>
            obtain ⟨hafter, hgates, happender⟩ := hshows.takeAppender htake
            cases result with
            | error failure => exact .rest hafter hgates trivial
            | ok appender => exact .rest hafter hgates ⟨h, happender appender rfl⟩
  | readStart appender interval =>
      refine .rest hshows rfl ⟨h.1.symm, ?_⟩
      rw [h.1]
      exact h.2
  | ready progress =>
      have hindex := h.index
      simp only [Producer.turn, hshows.config]
      split
      · rename_i hlast
        exact .rest (hshows.say _).releaseAppender rfl ⟨hlast, h.index.symm.trans hlast⟩
      · rename_i hmore
        have hproduced := hvalid.produced
        have hwrite : tally.stamped 0 < config.count := by omega
        split
        · split
          · exact .rest hshows.releaseAppender rfl trivial
          · exact .rest hshows rfl ⟨h, hwrite⟩
        · split
          · exact .rest hshows.releaseAppender rfl trivial
          · split
            · exact .rest hshows rfl ⟨h, hwrite⟩
            · exact .rest hshows rfl h
  | missed progress =>
      simp only [Producer.turn]
      split
      · exact .rest hshows.releaseAppender rfl trivial
      · exact .rest hshows rfl h
  | write progress =>
      obtain ⟨halong, hmore⟩ := h
      simp only [Producer.turn, hshows.config, halong.index, halong.appender]
      obtain ⟨after, hwork, hgates, hafter⟩ := hshows.produce hlayout now hmore
      have hkeeps : context.Keeps after := fun _ _ hfound => hgates ▸ hfound
      have halong' : Producer.Along (tally.stamp 0 now) ⟨config.stages⟩
          ⟨Layout.appenderAt ⟨config.stages⟩ (tally.stamped 0 + 1), progress.start,
            progress.interval, tally.stamped 0 + 1⟩ := by
        constructor <;> simp
      have hturn : Tally.Turn config.stages config.count .producer now tally (tally.stamp 0 now) :=
        .produce rfl hmore
      simp only [hwork, ne_eq, not_true_eq_false, if_false]
      split
      · exact ⟨hturn, hafter.say _, hkeeps, halong'⟩
      · exact ⟨hturn, hafter, hkeeps, halong'⟩
  | «over» outcome => exact .rest hshows rfl h

end Producer

/-! ### The stages -/

namespace Stage

/-- A turn of a stage leaves it with what follows from the tally. -/
def TurnFollows (config : Run.Config) (place : Storage.Place) (context : Run.Context)
    (tally : Tally) (now : Nat) (stage : Stage) : Prop :=
  Advances config place (.stage stage.number) now context tally (stage.turn now context).1
    (stage.next now tally) fun gates next => (stage.turn now context).2.Follows config gates next

variable {number : Nat} {pause : Pause} {duty : Duty} {entry : Entry}

/-- A stage whose gates are open stands in front of the first record. -/
private theorem along_first {gates : Registry} {gate : Gate} {previous : Option Gate}
    (hcount : 0 < config.count) (h : tally.completed number = 0 ∧ tally.stamped number = 0)
    (hgate : gates.find (Gate.ofStage number) = some gate)
    (hprevious : if number = 1 then previous = none
      else ∃ first, previous = some first ∧ gates.find (Gate.ofStage (number - 1)) = some first) :
    Along config gates tally number ⟨gate, previous, .start, 0⟩ (tally.completed number)
      (tally.completed number) ∧ tally.completed number < config.count := by
  rw [h.1]
  exact ⟨⟨hgate, hprevious, Tailer.start_stands _, h.1.symm, h.2⟩, hcount⟩

private theorem turn_begin (hcount : 0 < config.count) (hshows : context.Shows config place tally)
    (hfirst : 1 ≤ number) (hlast : number ≤ config.stages)
    (h : tally.completed number = 0 ∧ tally.stamped number = 0) :
    TurnFollows config place context tally now ⟨number, pause, .begin⟩ := by
  have hrange : ¬ (number = 0 ∨ config.stages < number) := by omega
  simp only [TurnFollows, Stage.turn, hshows.config, if_neg hrange]
  cases hopen : context.openGate (Gate.ofStage number) with
  | mk after result =>
      obtain ⟨hkeeps, hafter, hfound⟩ := hshows.openGate hfirst hlast hopen
      cases result with
      | error failure => exact ⟨.rest, hafter, hkeeps, trivial⟩
      | ok gate =>
          dsimp only
          split
          · rename_i hone
            subst hone
            exact ⟨.rest, hafter.say _, hkeeps, along_first hcount h (hfound gate rfl) (by simp)⟩
          · rename_i hlater
            exact ⟨.rest, hafter, hkeeps, h, hlater, hfound gate rfl⟩

private theorem turn_openPrevious {gate : Gate} (hcount : 0 < config.count)
    (hshows : context.Shows config place tally) (hfirst : 1 ≤ number)
    (hlast : number ≤ config.stages)
    (h : (tally.completed number = 0 ∧ tally.stamped number = 0) ∧ number ≠ 1 ∧
      context.gates.find (Gate.ofStage number) = some gate) :
    TurnFollows config place context tally now ⟨number, pause, .openPrevious gate⟩ := by
  obtain ⟨hdone, hlater, hgate⟩ := h
  simp only [TurnFollows, Stage.turn]
  cases hopen : context.openGate (Gate.ofStage (number - 1)) with
  | mk after result =>
      obtain ⟨hkeeps, hafter, hfound⟩ :=
        hshows.openGate (show 1 ≤ number - 1 by omega) (by omega) hopen
      cases result with
      | error failure => exact ⟨.rest, hafter, hkeeps, trivial⟩
      | ok previous =>
          have hprevious : if number = 1 then some previous = none
              else ∃ first, some previous = some first ∧
                after.gates.find (Gate.ofStage (number - 1)) = some first := by
            rw [if_neg hlater]
            exact ⟨previous, rfl, hfound previous rfl⟩
          exact ⟨.rest, hafter.say _, hkeeps,
            along_first hcount hdone (hkeeps number gate hgate) hprevious⟩

private theorem turn_awaitRecord (hvalid : tally.Valid config.stages config.count)
    (hshows : context.Shows config place tally) (hlast : number ≤ config.stages)
    (h : Along config context.gates tally number duty (tally.completed number)
      (tally.completed number) ∧ tally.completed number < config.count) :
    TurnFollows config place context tally now ⟨number, pause, .awaitRecord duty⟩ := by
  obtain ⟨gate, previous, tailer, processed⟩ := duty
  obtain ⟨halong, hmore⟩ := h
  have hproduced := hvalid.stamped_mono (Nat.zero_le number) hlast
  rw [halong.stamped] at hproduced
  have hstands := halong.tailer
  rw [← hshows.layout] at hstands
  have hread := Tailer.read_stands hshows.log.sound hshows.log.framed hshows.log.fits hproduced
    hstands
  simp only [TurnFollows, Stage.turn, hread]
  by_cases hcommitted : tally.completed number < tally.stamped 0
  · simp only [if_pos hcommitted, hshows.layout]
    have hcurrent : Along config context.gates tally number
        ⟨gate, previous, ⟨Layout.endAfter ⟨config.stages⟩ (tally.completed number + 1),
          tally.completed number + 1⟩, processed⟩ (tally.completed number + 1)
        (tally.completed number) :=
      { halong with tailer := ⟨rfl, .inl rfl⟩ }
    have hprevious := halong.previous
    by_cases hone : number = 1
    · subst hone
      rw [if_pos rfl] at hprevious
      subst hprevious
      exact .rest hshows rfl ⟨⟨hcurrent, rfl⟩, hcommitted⟩
    · rw [if_neg hone] at hprevious
      obtain ⟨first, rfl, -⟩ := hprevious
      exact .rest hshows rfl ⟨⟨hcurrent, rfl⟩, hone, hcommitted⟩
  · simp only [if_neg hcommitted]
    exact .rest hshows rfl ⟨halong, hmore⟩

private theorem turn_awaitPrevious (hshows : context.Shows config place tally)
    (hfirst : 1 ≤ number) (hlast : number ≤ config.stages)
    (halong : Along config context.gates tally number duty (tally.completed number + 1)
      (tally.completed number))
    (hentry : entry = Layout.entryAt ⟨config.stages⟩ (tally.completed number)) (hlater : number ≠ 1)
    (hcommitted : tally.completed number < tally.stamped 0) :
    TurnFollows config place context tally now ⟨number, pause, .awaitPrevious duty entry⟩ := by
  have hprevious := halong.previous
  rw [if_neg hlater] at hprevious
  obtain ⟨previous, hsome, hfound⟩ := hprevious
  have hcompleted := hshows.hasCompleted (show 1 ≤ number - 1 by omega) (by omega) hfound hcommitted
  subst hentry
  simp only [TurnFollows, Stage.turn, hsome, Layout.entryAt, hcompleted, decide_eq_true_eq]
  split
  · rename_i hpassed
    refine .rest hshows rfl ⟨⟨halong, rfl⟩, ?_⟩
    change tally.completed number < tally.through (number - 1)
    rw [Tally.through_pos _ (by omega)]
    exact hpassed
  · exact .rest hshows rfl ⟨⟨halong, rfl⟩, hlater, hcommitted⟩

private theorem turn_stamp (hlayout : (Layout.mk config.stages).Valid)
    (hshows : context.Shows config place tally) (hfirst : 1 ≤ number)
    (hlast : number ≤ config.stages)
    (halong : Along config context.gates tally number duty (tally.completed number + 1)
      (tally.completed number))
    (hentry : entry = Layout.entryAt ⟨config.stages⟩ (tally.completed number))
    (hthrough : tally.completed number < tally.through (number - 1)) :
    TurnFollows config place context tally now ⟨number, pause, .stamp duty entry⟩ := by
  have hview : entry.view = Layout.viewAt ⟨config.stages⟩ (tally.stamped number) := by
    rw [hentry, halong.stamped]
    rfl
  simp only [TurnFollows, Stage.turn, hview]
  rcases hwork : context.onLog (fun log => log.edit
    (Layout.viewAt ⟨config.stages⟩ (tally.stamped number)) (.stamp number (UInt64.ofNat now)))
    with ⟨after, result⟩
  obtain ⟨hgates, rfl, hafter⟩ := hshows.stamp hlayout now hfirst hlast hwork
  have hturn : Tally.Turn config.stages config.count (.stage number) now tally
      (tally.stamp number now) :=
    .stamp rfl hfirst hlast halong.stamped (by rwa [halong.stamped])
  have hkeeps : context.Keeps after := fun _ _ hfound => hgates ▸ hfound
  have halong' : Along config after.gates (tally.stamp number now) number duty
      (tally.completed number + 1) (tally.completed number + 1) :=
    ⟨hgates ▸ halong.gate, hgates ▸ halong.previous, halong.tailer, halong.processed, by
      rw [Tally.stamped_stamp, if_pos rfl, halong.stamped]⟩
  dsimp only
  split
  · exact ⟨hturn, hafter, hkeeps, halong', hentry⟩
  · exact ⟨hturn, hafter, hkeeps, halong', hentry⟩

private theorem turn_publish (hvalid : tally.Valid config.stages config.count)
    (hshows : context.Shows config place tally) (hfirst : 1 ≤ number)
    (hlast : number ≤ config.stages)
    (halong : Along config context.gates tally number duty (tally.completed number + 1)
      (tally.completed number + 1))
    (hentry : entry = Layout.entryAt ⟨config.stages⟩ (tally.completed number)) :
    TurnFollows config place context tally now ⟨number, pause, .publish duty entry⟩ := by
  have hproduced := hvalid.stamped_mono (Nat.zero_le number) hlast
  rw [halong.stamped] at hproduced
  have hindex : entry.index = tally.completed number := by
    rw [hentry]
    rfl
  have hvalue : gateValue entry = (tally.completed number : Int) := by
    rw [gateValue, hindex, Word.signed_ofNat (hshows.small (by omega))]
  obtain ⟨-, after, hpublish, hgates, hafter⟩ := hshows.publish hfirst hlast halong.gate
  have hturn : Tally.Turn config.stages config.count (.stage number) now tally
      (tally.complete number) := .complete rfl hfirst hlast halong.stamped
  have hdone : (tally.complete number).completed number = tally.completed number + 1 := by
    rw [Tally.completed_complete, if_pos rfl]
  have halong' : Along config after.gates (tally.complete number) number
      { duty with processed := duty.processed + 1 } ((tally.complete number).completed number)
      ((tally.complete number).completed number) := by
    rw [hdone]
    exact ⟨hgates ▸ halong.gate, hgates ▸ halong.previous, halong.tailer,
      (congrArg Nat.succ halong.processed).trans hdone.symm, halong.stamped⟩
  have hentry' : entry =
      Layout.entryAt ⟨config.stages⟩ ((tally.complete number).completed number - 1) := by
    rw [hdone, hentry, Nat.add_sub_cancel]
  simp only [TurnFollows, Stage.turn, hvalue, hpublish]
  refine ⟨hturn, hafter, fun _ _ hfound => hgates ▸ hfound, halong', ?_, hentry'⟩
  change 1 ≤ (tally.complete number).completed number
  omega

private theorem turn_published (hcount : config.count < wordLimit)
    (hvalid : tally.Valid config.stages config.count)
    (hshows : context.Shows config place tally) (hlast : number ≤ config.stages)
    (halong : Along config context.gates tally number duty (tally.completed number)
      (tally.completed number))
    (hsome : 1 ≤ tally.completed number)
    (hentry : entry = Layout.entryAt ⟨config.stages⟩ (tally.completed number - 1)) :
    TurnFollows config place context tally now ⟨number, pause, .published duty entry⟩ := by
  have hproduced := hvalid.stamped_mono (Nat.zero_le number) hlast
  have hbound := hvalid.produced
  rw [halong.stamped] at hproduced
  have hisLast := hshows.isLast hcount (tally.completed number - 1) (by omega) (by omega)
  simp only [TurnFollows, Stage.turn, hentry, Layout.entryAt, hisLast, decide_eq_true_eq]
  split
  · refine .rest (hshows.say _) rfl ⟨?_, ?_, ?_⟩
    · rw [halong.processed]
      congr 1 <;> omega
    · change tally.completed number = config.count
      omega
    · change tally.stamped number = config.count
      rw [halong.stamped]
      omega
  · refine .rest hshows rfl ⟨halong, ?_⟩
    change tally.completed number < config.count
    omega

theorem Follows.turn (now : Nat) {stage : Stage}
    (hcount : 0 < config.count ∧ config.count < wordLimit)
    (hlayout : (Layout.mk config.stages).Valid) (hvalid : tally.Valid config.stages config.count)
    (hshows : context.Shows config place tally) (hfirst : 1 ≤ stage.number)
    (hlast : stage.number ≤ config.stages) (h : stage.Follows config context.gates tally) :
    TurnFollows config place context tally now stage := by
  obtain ⟨number, pause, phase⟩ := stage
  cases phase with
  | begin => exact turn_begin hcount.1 hshows hfirst hlast h
  | openPrevious gate => exact turn_openPrevious hcount.1 hshows hfirst hlast h
  | awaitRecord duty => exact turn_awaitRecord hvalid hshows hlast h
  | missedRecord duty =>
      simp only [TurnFollows, Stage.turn]
      split
      · exact .rest hshows rfl h
      · exact .rest hshows rfl trivial
  | awaitPrevious duty entry =>
      exact turn_awaitPrevious hshows hfirst hlast h.1.1 h.1.2 h.2.1 h.2.2
  | missedPrevious duty entry =>
      simp only [TurnFollows, Stage.turn]
      split
      · exact .rest hshows rfl h
      · exact .rest hshows rfl trivial
  | stamp duty entry => exact turn_stamp hlayout hshows hfirst hlast h.1.1 h.1.2 h.2
  | startDelay duty entry delay => exact .rest hshows rfl h
  | spin duty entry deadline =>
      simp only [TurnFollows, Stage.turn]
      split
      · exact .rest hshows rfl h
      · exact .rest hshows rfl h
  | publish duty entry => exact turn_publish hvalid hshows hfirst hlast h.1 h.2
  | published duty entry => exact turn_published hcount.2 hvalid hshows hlast h.1 h.2.1 h.2.2
  | «over» outcome => exact .rest hshows rfl h

theorem Follows.mono {stage : Stage} {gates gates' : Registry} {tally' : Tally}
    (h : stage.Follows config gates tally)
    (hkeeps : ∀ other gate, gates.find (Gate.ofStage other) = some gate →
      gates'.find (Gate.ofStage other) = some gate)
    (hcompleted : tally'.completed stage.number = tally.completed stage.number)
    (hstamped : tally'.stamped stage.number = tally.stamped stage.number)
    (hproduced : tally.stamped 0 ≤ tally'.stamped 0)
    (hthrough : tally.through (stage.number - 1) ≤ tally'.through (stage.number - 1)) :
    stage.Follows config gates' tally' := by
  -- the stage's own counts stay, and what it waits for can only have come nearer
  obtain ⟨number, pause, phase⟩ := stage
  have halong : ∀ duty read stamped, Along config gates tally number duty read stamped →
      Along config gates' tally' number duty read stamped := by
    intro duty read stamped along
    refine ⟨hkeeps _ _ along.gate, ?_, along.tailer, along.processed.trans hcompleted.symm,
      hstamped.trans along.stamped⟩
    have hprevious := along.previous
    split at hprevious
    · rename_i hone
      rwa [if_pos hone]
    · rename_i hlater
      obtain ⟨previous, hsome, hfound⟩ := hprevious
      rw [if_neg hlater]
      exact ⟨previous, hsome, hkeeps _ _ hfound⟩
  cases phase with
  | begin => exact ⟨hcompleted.trans h.1, hstamped.trans h.2⟩
  | openPrevious gate =>
      exact ⟨⟨hcompleted.trans h.1.1, hstamped.trans h.1.2⟩, h.2.1, hkeeps _ _ h.2.2⟩
  | awaitRecord duty | missedRecord duty =>
      simp only [Follows, hcompleted] at h ⊢
      exact ⟨halong _ _ _ h.1, h.2⟩
  | awaitPrevious duty entry | missedPrevious duty entry =>
      simp only [Follows, hcompleted] at h ⊢
      exact ⟨⟨halong _ _ _ h.1.1, h.1.2⟩, h.2.1, Nat.lt_of_lt_of_le h.2.2 hproduced⟩
  | stamp duty entry =>
      simp only [Follows, hcompleted] at h ⊢
      exact ⟨⟨halong _ _ _ h.1.1, h.1.2⟩, Nat.lt_of_lt_of_le h.2 hthrough⟩
  | startDelay duty entry delay | spin duty entry deadline | publish duty entry
  | published duty entry =>
      simp only [Follows, hcompleted] at h ⊢
      exact ⟨halong _ _ _ h.1, h.2⟩
  | «over» outcome =>
      cases outcome with
      | error problem => trivial
      | ok stats => exact ⟨h.1, hcompleted.trans h.2.1, hstamped.trans h.2.2⟩

end Stage

end Turn

/-- The worker's variables, wherever it has come to. -/
def Follows (config : Run.Config) (gates : Registry) (tally : Tally) : Worker → Prop
  | .producer worker => worker.Follows config tally
  | .stage worker =>
      1 ≤ worker.number ∧ worker.number ≤ config.stages ∧ worker.Follows config gates tally

def next (now : Nat) (tally : Tally) : Worker → Tally
  | .producer worker => worker.next now tally
  | .stage worker => worker.next now tally

theorem role_turn (now : Nat) (context : Run.Context) (worker : Worker) :
    (worker.turn now context).2.role = worker.role := by
  cases worker with
  | producer worker => rfl
  | stage worker => exact congrArg Role.stage (worker.number_turn now context)

/-- The slot that a worker stamps. -/
def Role.slot : Role → Nat
  | .producer => 0
  | .stage number => number

def slot (worker : Worker) : Nat := worker.role.slot

theorem slot_turn (now : Nat) (context : Run.Context) (worker : Worker) :
    (worker.turn now context).2.slot = worker.slot :=
  congrArg Role.slot (role_turn now context worker)

section

variable {config : Run.Config} {place : Storage.Place} {context : Run.Context} {tally : Tally}
  {worker : Worker} {now : Nat}

theorem Follows.slot_le {gates : Registry} (h : worker.Follows config gates tally) :
    worker.slot ≤ config.stages := by
  cases worker with
  | producer worker => exact Nat.zero_le _
  | stage worker => exact h.2.1

theorem Follows.turn (now : Nat) (hcount : 0 < config.count ∧ config.count < wordLimit)
    (hlayout : (Layout.mk config.stages).Valid) (hvalid : tally.Valid config.stages config.count)
    (hshows : context.Shows config place tally) (h : worker.Follows config context.gates tally) :
    Advances config place worker.role now context tally (worker.turn now context).1
      (worker.next now tally) fun gates next =>
        (worker.turn now context).2.Follows config gates next := by
  cases worker with
  | producer worker =>
      have hturn := Producer.Follows.turn hvalid hlayout hshows now h
      exact ⟨hturn.turn, hturn.shows, hturn.keeps, hturn.follows⟩
  | stage worker =>
      have hturn := Stage.Follows.turn now hcount hlayout hvalid hshows h.1 h.2.1 h.2.2
      have hfirst : 1 ≤ (worker.turn now context).2.number := by
        rw [worker.number_turn]
        exact h.1
      have hlast : (worker.turn now context).2.number ≤ config.stages := by
        rw [worker.number_turn]
        exact h.2.1
      exact ⟨hturn.turn, hturn.shows, hturn.keeps, hfirst, hlast, hturn.follows⟩

/-- A turn of another worker leaves this one's variables as they have to be. -/
theorem Follows.others {gates : Registry} {role : Role} {after : Tally}
    (h : worker.Follows config context.gates tally)
    (hkeeps : ∀ other gate, context.gates.find (Gate.ofStage other) = some gate →
      gates.find (Gate.ofStage other) = some gate)
    (hturn : Tally.Turn config.stages config.count role now tally after)
    (hrole : worker.role ≠ role) : worker.Follows config gates after := by
  obtain ⟨hstamped, hthrough, hproduced, hothers⟩ := hturn.others
  cases worker with
  | producer worker =>
      exact Producer.Follows.mono h (hproduced (Ne.symm hrole))
  | stage worker =>
      obtain ⟨hsame, hcompleted⟩ := hothers worker.number h.1 (Ne.symm hrole)
      exact ⟨h.1, h.2.1, h.2.2.mono hkeeps hcompleted hsame (hstamped 0) (hthrough _)⟩

end

end Worker

end GatedPipeline
