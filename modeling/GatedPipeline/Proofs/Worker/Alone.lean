import GatedPipeline.Proofs.Pause.Poll
import GatedPipeline.Proofs.Run.Used
import GatedPipeline.Proofs.Worker.Shared

/-!
A stage that works alone. Nothing changes but by its own hand, so it lets through the records that
are there, as far as the stage before has completed them and up to the one that announces no other,
and then it is over: done, or given up by its pause at the one wait that will never end.
-/

namespace GatedPipeline

namespace Worker.Stage

/-! ### Turns alone -/

/-- A stage that works alone comes to a goal after some turns. -/
inductive Comes (clock : Nat → Nat) (goal : Run.Context → Stage → Prop) :
    Nat → Run.Context → Stage → Prop
  | here {turns : Nat} {context : Run.Context} {stage : Stage} (hgoal : goal context stage) :
      Comes clock goal turns context stage
  | turn {turns : Nat} {context after : Run.Context} {stage later : Stage}
      (hwork : stage.outcome = none) (hturn : stage.turn (clock turns) context = (after, later))
      (hlater : Comes clock goal (turns + 1) after later) : Comes clock goal turns context stage

section Comes

variable {clock : Nat → Nat} {goal : Run.Context → Stage → Prop} {turns : Nat}
  {context : Run.Context} {stage : Stage}

theorem runAlone_over (hover : stage.outcome.isSome) (fuel : Nat) :
    runAlone clock fuel turns context (.stage stage) = (context, .stage stage, turns) := by
  cases fuel with
  | zero => rfl
  | succ fuel =>
      have hisOver : (Worker.stage stage).isOver = true := by
        simpa [isOver, Worker.outcome] using hover
      rw [runAlone, if_pos hisOver]

/-- With fuel enough the stage is given the turns it takes and no more. -/
theorem Comes.runAlone (h : Comes clock goal turns context stage)
    (hover : ∀ after reached, goal after reached → reached.outcome.isSome) :
    ∃ taken after reached, goal after reached ∧ ∀ fuel, taken ≤ fuel →
      runAlone clock fuel turns context (.stage stage) =
        (after, .stage reached, turns + taken) := by
  induction h with
  | here hgoal =>
      exact ⟨0, _, _, hgoal, fun fuel _ => runAlone_over (hover _ _ hgoal) fuel⟩
  | @turn turns context after stage later hwork hturn _ ih =>
      obtain ⟨taken, final, reached, hgoal, hrun⟩ := ih
      refine ⟨taken + 1, final, reached, hgoal, fun fuel hfuel => ?_⟩
      obtain ⟨rest, rfl⟩ := Nat.exists_eq_add_of_lt hfuel
      have hisOver : (Worker.stage stage).isOver = false := by
        simp [isOver, Worker.outcome, hwork]
      have hrest := hrun (taken + rest) (Nat.le_add_right taken rest)
      rw [Worker.runAlone, hisOver, if_neg Bool.false_ne_true]
      simp only [Worker.turn, hturn, hrest, Nat.add_assoc, Nat.add_comm 1]

end Comes

/-! ### Waiting in vain -/

/-- Why a wait that nobody ends is given up. -/
def givesUp (context : Run.Context) (limit : Nat) : Cause :=
  if context.aborted then .aborted else .noProgress limit

section Wait

variable {clock : Nat → Nat} {goal : Run.Context → Stage → Prop} {context : Run.Context}
  {number limit : Nat} {attempt : Phase} {circumstance : Circumstance}

/-- An attempt that fails once fails each time, so the pause ends the wait. -/
theorem comes_waiting (missed : Phase)
    (hattempting : ∀ pause, (Stage.mk number pause attempt).outcome = none)
    (hmissing : ∀ pause, (Stage.mk number pause missed).outcome = none)
    (hattempt : ∀ pause now, turn now context ⟨number, pause, attempt⟩ =
      (context, ⟨number, pause, missed⟩))
    (hgoes : ∀ pause after now, pause.afterMiss context.aborted now = (after, .ok ()) →
      turn now context ⟨number, pause, missed⟩ = (context, ⟨number, after, attempt⟩))
    (hgives : ∀ pause after problem now,
      pause.afterMiss context.aborted now = (after, .error problem) →
        turn now context ⟨number, pause, missed⟩ =
          (context, ⟨number, after, .over (.error (problem.within circumstance))⟩))
    (hlimit : limit + 1 < wordLimit)
    (hgoal : ∀ pause, goal context ⟨number, pause,
      .over (.error (.failed ⟨[circumstance], givesUp context limit⟩))⟩)
    {polls : Nat} (hpolls : polls ≤ limit) (turns : Nat) :
    Comes clock goal turns context ⟨number, .bounded limit polls, attempt⟩ := by
  cases haborted : context.aborted with
  | true =>
      have hmiss : (Pause.bounded limit polls).afterMiss context.aborted (clock (turns + 1)) =
          (.bounded limit polls, .error (.of .aborted)) := by
        rw [haborted]
        rfl
      simp only [givesUp, haborted, if_true] at hgoal
      exact .turn (hattempting _) (hattempt _ _)
        (.turn (hmissing _) (hgives _ _ _ _ hmiss) (.here (hgoal _)))
  | false =>
      simp only [givesUp, haborted, Bool.false_eq_true, if_false] at hgoal
      obtain ⟨left, hleft⟩ := Nat.exists_eq_add_of_le hpolls
      induction left generalizing polls turns with
      | zero =>
          have hmiss : (Pause.bounded limit polls).afterMiss context.aborted (clock (turns + 1)) =
              (.bounded limit (polls + 1), .error (.of (.noProgress limit))) := by
            rw [haborted, Pause.afterMiss_bounded (by omega), if_pos (by omega)]
          exact .turn (hattempting _) (hattempt _ _)
            (.turn (hmissing _) (hgives _ _ _ _ hmiss) (.here (hgoal _)))
      | succ left ih =>
          have hmiss : (Pause.bounded limit polls).afterMiss context.aborted (clock (turns + 1)) =
              (.bounded limit (polls + 1), .ok ()) := by
            rw [haborted, Pause.afterMiss_bounded (by omega), if_neg (by omega)]
          exact .turn (hattempting _) (hattempt _ _)
            (.turn (hmissing _) (hgoes _ _ _ hmiss) (ih (by omega) (turns + 2) (by omega)))

end Wait

/-! ### What a stage has completed -/

/-- The stage has completed so many records of a run that it found as `start`, and nothing else has
changed. The slots of the stage hold clock readings in these records, and all other words, the
counts and positions of the log and the gates of all other ids are as they were, whether or not the
gates have been opened since. -/
structure Completed (clock : Nat → Nat) (start after : Run.Context) (number done : Nat) : Prop where
  stamped : ∀ index < done, ∃ moment,
    (after.log.record (start.log.layout.viewAt index)).time number =
      .ok (UInt64.ofNat (clock moment))
  words : ∀ position, position % 8 = 0 →
    (∀ index < done, position ≠ start.log.layout.bodyAt index + (number + 1) * 8) →
      after.log.word position = start.log.word position
  log : after.log = { start.log with words := after.log.words }
  entries : after.log.entries = start.log.entries
  gate : after.gate number = (done : Int) - 1
  others : ∀ id, id ≠ Gate.ofStage number → after.valueOf id = start.valueOf id
  kept : ∀ id gate, start.gates.find id = some gate → after.gates.find id = some gate
  config : after.config = start.config
  aborted : after.aborted = start.aborted
  directory : after.directory = start.directory

section Completed

variable {clock : Nat → Nat} {start context after : Run.Context} {number done : Nat}

theorem completed_none (hown : start.gate number = -1) : Completed clock start start number 0 :=
  ⟨nofun, fun _ _ _ => rfl, rfl, rfl, hown, fun _ _ => rfl, fun _ _ hkept => hkept, rfl, rfl, rfl⟩

theorem Completed.say (h : Completed clock start context number done) (event : Event) :
    Completed clock start (context.say event) number done :=
  ⟨h.stamped, h.words, h.log, h.entries, h.gate, h.others, h.kept, h.config, h.aborted,
    h.directory⟩

/-- Opening a gate completes nothing. -/
theorem Completed.opened (h : Completed clock start context number done) {id : String} {gate : Gate}
    (hopened : context.Opened id after gate) : Completed clock start after number done := by
  obtain ⟨hleaves, hlog, hconfig, haborted, hdirectory⟩ := hopened
  refine ⟨?_, ?_, ?_, ?_, (hleaves.values _).trans h.gate,
    fun other hother => (hleaves.values other).trans (h.others other hother),
    fun other second hsecond => hleaves.kept other second (h.kept other second hsecond),
    hconfig.trans h.config, haborted.trans h.aborted, hdirectory.trans h.directory⟩
  all_goals rw [hlog]
  · exact h.stamped
  · exact h.words
  · exact h.log
  · exact h.entries

end Completed

/-- How many records a stage can let through alone: those committed, as far as the stage before has
completed them. -/
def reach (context : Run.Context) (number : Nat) : Nat :=
  if number = 1 then context.log.entries.length
  else min context.log.entries.length (context.gate (number - 1) + 1).toNat

/-- The index of the first record that announces no other. -/
def terminal (log : Log) : Option Nat :=
  log.entries.findIdx? fun entry => (log.record entry.view).isLast

/-- What a stage alone waits for when it has let through all that it can. -/
def awaits (context : Run.Context) (number : Nat) : Circumstance :=
  if reach context number = context.log.entries.length then
    .awaitingRecord number (reach context number)
  else .awaitingGate number (Gate.ofStage (number - 1)) (reach context number)

/-- How many records a stage completes alone, and how it ends. -/
def ending (context : Run.Context) (number limit : Nat) : Nat × Except Problem Stats :=
  let given : Nat × Except Problem Stats := (reach context number,
    .error (.failed ⟨[awaits context number], givesUp context limit⟩))
  match terminal context.log with
  | some last =>
      if last < reach context number then (last + 1, .ok ⟨number, last + 1, last⟩) else given
  | none => given

def Duty.behind (duty : Duty) (layout : Layout) (index : Nat) : Duty :=
  { duty with tailer := ⟨layout.endAfter (index + 1), index + 1⟩ }

def Duty.counted (duty : Duty) : Duty := { duty with processed := duty.processed + 1 }

/-- How the file system refuses a stage one of its two gates, if it does. -/
def refusal (context : Run.Context) (number : Nat) : Option Failure :=
  match context.openGate (Gate.ofStage number) with
  | (_, .error failure) => some failure
  | (after, .ok _) =>
      if number = 1 then none
      else
        match after.openGate (Gate.ofStage (number - 1)) with
        | (_, .error failure) => some failure
        | (_, .ok _) => none

/-- How many records a stage completes alone, and how it ends, if it may have to do without gates.
-/
def result (context : Run.Context) (number limit : Nat) : Nat × Except Problem Stats :=
  match refusal context number with
  | some failure => (0, .error (.failed failure))
  | none => ending context number limit

/-- The stage stands in front of a record, with its gates open. -/
structure Facing (clock : Nat → Nat) (config : Run.Config) (committed : Nat)
    (start context : Run.Context) (number index : Nat) (duty : Duty) : Prop where
  completed : Completed clock start context number index
  log : context.log.Kept ⟨config.stages⟩ context.log.capacity committed
  apart : context.gates.Apart context.storage
  gate : context.gates.find (Gate.ofStage number) = some duty.gate
  previous : if number = 1 then duty.previous = none
    else ∃ previous, duty.previous = some previous ∧
      context.gates.find (Gate.ofStage (number - 1)) = some previous
  tailer : duty.tailer.Stands ⟨config.stages⟩ index
  processed : duty.processed = index
  config : context.config = config

section Facing

variable {clock : Nat → Nat} {config : Run.Config} {committed : Nat}
  {start context : Run.Context} {number index : Nat} {duty : Duty}
  (h : Facing clock config committed start context number index duty)

include h

theorem Facing.layout : start.log.layout = ⟨config.stages⟩ :=
  (congrArg Log.layout h.completed.log).symm.trans h.log.layout_eq

theorem Facing.narrow : Layout.words ⟨config.stages⟩ < wordLimit := by
  have hfew := h.log.sound.layout.few_stages
  rw [h.log.layout_eq] at hfew
  simp only [Layout.words, maxStages, wordLimit] at *
  omega

theorem Facing.small (hindex : index ≤ committed) : (index : Int) < signedLimit :=
  Log.index_small h.log.sound (Nat.le_trans hindex h.log.fits)

theorem Facing.read (hindex : index ≤ committed) : duty.tailer.read context.log =
    if index < committed then
      (⟨Layout.endAfter ⟨config.stages⟩ (index + 1), index + 1⟩,
        .ok (some (Layout.entryAt ⟨config.stages⟩ index)))
    else (duty.tailer, .ok none) := by
  have hstands := h.tailer
  have hlayout := h.log.layout_eq
  rw [← hlayout] at hstands
  rw [Tailer.read_stands h.log.sound h.log.framed h.log.fits hindex hstands, hlayout]

/-- The shared state once the stage has stamped a record. -/
def stamping (context : Run.Context) (number index time : Nat) : Run.Context :=
  { context with
    log := context.log.setWord (context.log.layout.bodyAt index + (number + 1) * 8)
      (UInt64.ofNat time) }

def completing (context : Run.Context) (number index time : Nat) (gate : Gate) : Run.Context :=
  { stamping context number index time with storage := context.storage.setCell gate.cell index }

theorem Facing.complete (hlast : number ≤ config.stages) (moment : Nat) :
    Facing clock config committed start
      (completing context number index (clock moment) duty.gate) number (index + 1)
      (duty.behind ⟨config.stages⟩ index).counted := by
  have hlayout := h.layout
  have hsame := h.log.layout_eq
  have hword : number + 1 < Layout.words ⟨config.stages⟩ := by
    simp only [Layout.words]
    omega
  have hgate : context.gates.valueOf context.storage (Gate.ofStage number) = (index : Int) - 1 :=
    h.completed.gate
  obtain ⟨-, hapart, hvalues⟩ := h.apart.publish h.gate (show _ ≤ (index : Int) by omega)
  have hkept : (completing context number index (clock moment) duty.gate).log.Kept
      ⟨config.stages⟩ context.log.capacity committed := by
    simp only [completing, stamping, hsame]
    exact h.log.setBody hword _
  refine ⟨?_, hkept, hapart, h.gate, h.previous, ⟨rfl, .inl rfl⟩, congrArg Nat.succ h.processed,
    h.config⟩
  constructor
  case stamped =>
    intro other hother
    have hstored := @Log.word_setBody context.log index (number + 1) other (number + 1)
      (hsame ▸ hword) (hsame ▸ hword) (UInt64.ofNat (clock moment))
    rw [hlayout, Log.time_viewAt _ other hword h.narrow, ← hsame]
    simp only [completing, stamping, hstored, and_true]
    split_ifs with hthis
    · exact ⟨moment, rfl⟩
    · have hbefore := h.completed.stamped other (by omega)
      rw [hlayout, Log.time_viewAt _ other hword h.narrow, ← hsame] at hbefore
      exact hbefore
  case words =>
    intro position haligned hothers
    have hbefore := h.completed.words position haligned fun other hother =>
      hothers other (by omega)
    have hthis := hothers index (by omega)
    have hbody := context.log.layout.bodyAt_aligned index
    rw [hlayout, ← hsame] at hthis
    simp only [completing, stamping, Log.word_setWord]
    rw [if_neg (by omega), hbefore]
  case log =>
    have hlog := h.completed.log
    simp only [completing, stamping]
    generalize context.log.words = words at hlog
    rw [hlog]
    rfl
  case entries => exact hkept.entries.trans (h.log.entries.symm.trans h.completed.entries)
  case gate =>
    have hvalue := hvalues (Gate.ofStage number)
    rw [if_pos rfl] at hvalue
    refine hvalue.trans ?_
    omega
  case others =>
    intro id hid
    have hvalue := hvalues id
    rw [if_neg hid] at hvalue
    exact hvalue.trans (h.completed.others id hid)
  case kept => exact h.completed.kept
  case config => exact h.completed.config
  case aborted => exact h.completed.aborted
  case directory => exact h.completed.directory

/-- What the stage has stored is in its own slot. -/
theorem Facing.isLast (hlast : number ≤ config.stages) (other : Nat) :
    (context.log.record (Layout.viewAt ⟨config.stages⟩ other)).isLast =
      (start.log.record (Layout.viewAt ⟨config.stages⟩ other)).isLast := by
  have haligned := Layout.bodyAt_aligned ⟨config.stages⟩ other
  rw [Log.isLast_viewAt, Log.isLast_viewAt, h.completed.words _ (by omega)]
  intro index _ hat
  rw [h.layout] at hat
  have hplace := Layout.Place.position_injective ⟨config.stages⟩ (.body other 0)
    (.body index (number + 1)) (Nat.succ_pos _) (Nat.succ_lt_succ (Nat.lt_succ_of_le hlast)) hat
  cases hplace

theorem Facing.hasCompleted (hfirst : 1 < number) (hindex : index ≤ committed) :
    ∃ previous, duty.previous = some previous ∧ previous.id = Gate.ofStage (number - 1) ∧
      context.hasCompleted previous index =
        decide (index < (start.gate (number - 1) + 1).toNat) := by
  have hprevious := h.previous
  rw [if_neg (by omega)] at hprevious
  obtain ⟨previous, hsome, hfound⟩ := hprevious
  refine ⟨previous, hsome, (Registry.find_mem hfound).2, ?_⟩
  have hother : Gate.ofStage (number - 1) ≠ Gate.ofStage number := by
    intro hsame
    have hnumbers := Gate.ofStage_injective hsame
    omega
  have hread : previous.read context.storage = start.gate (number - 1) := by
    have hvalue := h.completed.others _ hother
    rw [Run.Context.valueOf, Registry.valueOf, hfound] at hvalue
    exact hvalue
  simp only [Run.Context.hasCompleted, Gate.hasCompleted, Word.signed_ofNat (h.small hindex),
    hread, decide_eq_decide]
  omega

/-! ### Its turns -/

theorem Facing.turn_found (hindex : index < committed) (pause : Pause) (now : Nat) :
    turn now context ⟨number, pause, .awaitRecord duty⟩ =
      (context, ⟨number, pause.reset,
        if number = 1 then
          .stamp (duty.behind ⟨config.stages⟩ index) (Layout.entryAt ⟨config.stages⟩ index)
        else
          .awaitPrevious (duty.behind ⟨config.stages⟩ index)
            (Layout.entryAt ⟨config.stages⟩ index)⟩) := by
  have hread := h.read (Nat.le_of_lt hindex)
  have hprevious := h.previous
  rw [if_pos hindex] at hread
  simp only [turn, hread]
  by_cases hone : number = 1
  · rw [if_pos hone] at hprevious
    simp [Duty.behind, hprevious, hone]
  · rw [if_neg hone] at hprevious
    obtain ⟨previous, hsome, -⟩ := hprevious
    simp [Duty.behind, hsome, hone]

theorem Facing.turn_nothing (hindex : index = committed) (pause : Pause) (now : Nat) :
    turn now context ⟨number, pause, .awaitRecord duty⟩ =
      (context, ⟨number, pause, .missedRecord duty⟩) := by
  have hread := h.read (Nat.le_of_eq hindex)
  rw [if_neg (by omega)] at hread
  simp only [turn, hread]

theorem Facing.turn_stamp (hlast : number ≤ config.stages) (pause : Pause) (now : Nat)
    (ahead : Duty) :
    turn now context ⟨number, pause, .stamp ahead (Layout.entryAt ⟨config.stages⟩ index)⟩ =
      (stamping context number index now,
        ⟨number, pause, match context.config.delayOf number with
          | some delay => .startDelay ahead (Layout.entryAt ⟨config.stages⟩ index) delay
          | none => .publish ahead (Layout.entryAt ⟨config.stages⟩ index)⟩) := by
  have htarget := Edit.target_stamp (Layout.words ⟨config.stages⟩) number
    (by simp only [Layout.words]; omega) h.narrow (UInt64.ofNat now)
  have hedit : context.log.edit (Layout.viewAt ⟨config.stages⟩ index)
      (.stamp number (UInt64.ofNat now)) =
        (context.log.setWord (context.log.layout.bodyAt index + (number + 1) * 8)
          (UInt64.ofNat now), .ok ()) := by
    simp only [Log.edit, Layout.viewAt, htarget, h.log.layout_eq]
  simp only [turn, Layout.entryAt, Run.Context.onLog, hedit]
  cases context.config.delayOf number <;> rfl

theorem Facing.turn_publish (hindex : index ≤ committed) (pause : Pause) (now time : Nat) :
    turn now (stamping context number index time) ⟨number, pause,
        .publish (duty.behind ⟨config.stages⟩ index) (Layout.entryAt ⟨config.stages⟩ index)⟩ =
      (completing context number index time duty.gate,
        ⟨number, pause, .published (duty.behind ⟨config.stages⟩ index).counted
          (Layout.entryAt ⟨config.stages⟩ index)⟩) := by
  have hvalue : context.gates.valueOf context.storage (Gate.ofStage number) = (index : Int) - 1 :=
    h.completed.gate
  obtain ⟨hpublish, -, -⟩ := h.apart.publish h.gate (show _ ≤ (index : Int) by omega)
  have hentry : gateValue (Layout.entryAt ⟨config.stages⟩ index) = (index : Int) :=
    Word.signed_ofNat (h.small hindex)
  simp only [turn, hentry, Duty.behind, Run.Context.publish, stamping, hpublish]
  rfl

end Facing

theorem published_turn (context : Run.Context) (number : Nat) (pause : Pause) (duty : Duty)
    (entry : Entry) (now : Nat) : turn now context ⟨number, pause, .published duty entry⟩ =
      if (context.log.record entry.view).isLast then
        (context.say (.stageDone number duty.processed entry.index),
          ⟨number, pause, .over (.ok ⟨number, duty.processed, entry.index⟩)⟩)
      else (context, ⟨number, pause, .awaitRecord duty⟩) := rfl

/-! ### The whole run -/

section Spin

variable {clock : Nat → Nat} {goal : Run.Context → Stage → Prop} {context : Run.Context}
  {number : Nat} {pause : Pause} {duty : Duty} {entry : Entry}

theorem comes_spinning {deadline last turns : Nat} (hlate : deadline ≤ clock last)
    (hturns : turns ≤ last)
    (hgoal : ∀ turns, Comes clock goal turns context ⟨number, pause, .publish duty entry⟩) :
    Comes clock goal turns context ⟨number, pause, .spin duty entry deadline⟩ := by
  obtain ⟨left, hleft⟩ := Nat.exists_eq_add_of_le hturns
  induction left generalizing turns with
  | zero =>
      obtain rfl : last = turns := hleft
      refine .turn rfl rfl ?_
      rw [if_neg (Nat.not_lt.mpr hlate)]
      exact hgoal _
  | succ left ih =>
      refine .turn rfl rfl ?_
      split
      · exact ih (by omega) (by omega)
      · exact hgoal _

end Spin

section Facing

variable {clock : Nat → Nat} {config : Run.Config} {committed : Nat}
  {start context : Run.Context} {number index : Nat} {duty : Duty}
  (h : Facing clock config committed start context number index duty)
  (hlast : number ≤ config.stages)
  (hclock : ∀ delay, config.delayOf number = some delay → ∀ moment, ∃ later > moment,
    delayEnd (clock moment) delay ≤ clock later)

include h hlast hclock

/-- From the stamp on nothing keeps the stage from publishing but its delay. -/
theorem Facing.comes_published (hindex : index ≤ committed)
    {goal : Run.Context → Stage → Prop} {pause : Pause}
    (hgoal : ∀ turns moment, Comes clock goal turns
      (completing context number index (clock moment) duty.gate)
      ⟨number, pause, .published (duty.behind ⟨config.stages⟩ index).counted
        (Layout.entryAt ⟨config.stages⟩ index)⟩) (turns : Nat) :
    Comes clock goal turns context ⟨number, pause, .stamp (duty.behind ⟨config.stages⟩ index)
      (Layout.entryAt ⟨config.stages⟩ index)⟩ := by
  have hpublish : ∀ later, Comes clock goal later (stamping context number index (clock turns))
      ⟨number, pause, .publish (duty.behind ⟨config.stages⟩ index)
        (Layout.entryAt ⟨config.stages⟩ index)⟩ := fun later =>
    .turn rfl (h.turn_publish hindex pause (clock later) (clock turns)) (hgoal (later + 1) turns)
  refine .turn rfl (h.turn_stamp hlast pause (clock turns) _) ?_
  rw [h.config]
  cases hdelay : config.delayOf number with
  | none => exact hpublish (turns + 1)
  | some delay =>
      obtain ⟨later, hlater, hlate⟩ := hclock delay hdelay (turns + 1)
      exact .turn rfl rfl (comes_spinning hlate hlater hpublish)

end Facing

/-! ### How it ends -/

section Ending

variable {start : Run.Context} {layout : Layout} {capacity committed number limit : Nat}
  (h : start.log.Kept layout capacity committed)

include h

theorem reach_le : reach start number ≤ committed := by
  have hlength : start.log.entries.length = committed := by simp [h.entries]
  unfold reach
  split_ifs <;> omega

theorem terminal_eq_some {last : Nat} : terminal start.log = some last ↔
    last < committed ∧ (start.log.record (layout.viewAt last)).isLast = true ∧
      ∀ other < last, (start.log.record (layout.viewAt other)).isLast = false := by
  rw [terminal, h.entries, List.findIdx?_eq_some_iff_getElem]
  simp [Layout.entryAt, and_left_comm]

/-- A record within reach announces no other, and none before it does. -/
theorem ending_done {last : Nat} (hreach : last < reach start number)
    (hthis : (start.log.record (layout.viewAt last)).isLast = true)
    (hbefore : ∀ other < last, (start.log.record (layout.viewAt other)).isLast = false) :
    ending start number limit = (last + 1, .ok ⟨number, last + 1, last⟩) := by
  have hterminal := (terminal_eq_some h).mpr
    ⟨Nat.lt_of_lt_of_le hreach (reach_le h), hthis, hbefore⟩
  simp only [ending, hterminal, if_pos hreach]

/-- All records within reach announce others. -/
theorem ending_given (hbefore : ∀ other < reach start number,
      (start.log.record (layout.viewAt other)).isLast = false) :
    ending start number limit = (reach start number,
      .error (.failed ⟨[awaits start number], givesUp start limit⟩)) := by
  cases hterminal : terminal start.log with
  | none => simp only [ending, hterminal]
  | some last =>
      obtain ⟨-, hthis, -⟩ := (terminal_eq_some h).mp hterminal
      have hbeyond : ¬ last < reach start number := by
        intro hwithin
        rw [hbefore last hwithin] at hthis
        cases hthis
      simp only [ending, hterminal, if_neg hbeyond]

end Ending

/-- The stage is over with a result, and has completed so many records as belong to it. -/
structure Ends (clock : Nat → Nat) (start : Run.Context) (number : Nat)
    (result : Nat × Except Problem Stats) (after : Run.Context) (stage : Stage) : Prop where
  outcome : stage.outcome = some result.2
  completed : Completed clock start after number result.1

section Run

variable {clock : Nat → Nat} {config : Run.Config} {committed limit : Nat}
  {start context : Run.Context} {number index : Nat} {duty : Duty}
  (h : Facing clock config committed start context number index duty)
  (hstart : start.log.Kept ⟨config.stages⟩ start.log.capacity committed)

include h hstart

/-- With all records within reach completed, giving up is the end. -/
theorem Facing.ends (hreach : index = reach start number) (hbefore : ∀ other < index,
      (start.log.record (Layout.viewAt ⟨config.stages⟩ other)).isLast = false)
    {circumstance : Circumstance} (hawaits : awaits start number = circumstance) (pause : Pause) :
    Ends clock start number (ending start number limit) context ⟨number, pause,
      .over (.error (.failed ⟨[circumstance], givesUp context limit⟩))⟩ := by
  have hending : ending start number limit = _ := ending_given hstart (hreach ▸ hbefore)
  have hgives : givesUp context limit = givesUp start limit := by
    rw [givesUp, givesUp, h.completed.aborted]
  rw [← hawaits, hgives]
  constructor
  · rw [hending]
    rfl
  · rw [hending, ← hreach]
    exact h.completed

variable (hlimit : limit + 1 < wordLimit)

include hlimit

/-- No record is there any more. -/
theorem Facing.comes_short (hall : index = committed) (hreach : index = reach start number)
    (hbefore : ∀ other < index,
      (start.log.record (Layout.viewAt ⟨config.stages⟩ other)).isLast = false) (turns : Nat) :
    Comes clock (Ends clock start number (ending start number limit)) turns context
      ⟨number, .bounded limit 0, .awaitRecord duty⟩ := by
  have hlength : start.log.entries.length = committed := by simp [hstart.entries]
  have hawaits : awaits start number = .awaitingRecord number index := by
    rw [awaits, if_pos (by omega), hreach]
  refine comes_waiting (.missedRecord duty) (fun _ => rfl) (fun _ => rfl) (h.turn_nothing hall)
    (fun pause after now hmiss => ?_) (fun pause after problem now hmiss => ?_) hlimit
    (h.ends hstart hreach hbefore hawaits) (Nat.zero_le _) turns
  · simp only [turn, hmiss]
  · simp only [turn, hmiss, h.tailer.next]

/-- The next record is there, and the stage before has not completed it. -/
theorem Facing.comes_held (hmore : index < committed) (hreach : index = reach start number)
    (hfirst : 1 ≤ number) (hbefore : ∀ other < index,
      (start.log.record (Layout.viewAt ⟨config.stages⟩ other)).isLast = false) (turns : Nat) :
    Comes clock (Ends clock start number (ending start number limit)) turns context
      ⟨number, .bounded limit 0, .awaitRecord duty⟩ := by
  have hlength : start.log.entries.length = committed := by simp [hstart.entries]
  have hawaits : awaits start number =
      .awaitingGate number (Gate.ofStage (number - 1)) index := by
    rw [awaits, if_neg (by omega), hreach]
  have hone : number ≠ 1 := by
    rintro rfl
    rw [reach, if_pos rfl] at hreach
    omega
  obtain ⟨previous, hsome, hid, hcompleted⟩ := h.hasCompleted (by omega) (Nat.le_of_lt hmore)
  rw [decide_eq_false (by rw [reach, if_neg hone] at hreach; omega)] at hcompleted
  have hfound := h.turn_found hmore (.bounded limit 0) (clock turns)
  rw [if_neg hone] at hfound
  refine .turn rfl hfound (comes_waiting
    (.missedPrevious (duty.behind ⟨config.stages⟩ index) (Layout.entryAt ⟨config.stages⟩ index))
    (fun _ => rfl) (fun _ => rfl) (fun pause now => ?_) (fun pause after now hmiss => ?_)
    (fun pause after problem now hmiss => ?_) hlimit (h.ends hstart hreach hbefore hawaits)
    (Nat.zero_le _) (turns + 1))
  · simp only [turn, Duty.behind, hsome, Layout.entryAt, hcompleted, Bool.false_eq_true, if_false]
  · simp only [turn, hmiss]
  · simp only [turn, hmiss, Duty.behind, hsome, Option.map_some, Option.getD_some, hid,
      Layout.entryAt]

omit hlimit

variable (hfirst : 1 ≤ number) (hlast : number ≤ config.stages)
  (hclock : ∀ delay, config.delayOf number = some delay → ∀ moment, ∃ later > moment,
    delayEnd (clock moment) delay ≤ clock later)

include hfirst hlast hclock

/-- A record within reach is stamped and published. -/
theorem Facing.comes_past (hreach : index < reach start number)
    {goal : Run.Context → Stage → Prop}
    (hgoal : ∀ turns moment, Comes clock goal turns
      (completing context number index (clock moment) duty.gate)
      ⟨number, .bounded limit 0, .published (duty.behind ⟨config.stages⟩ index).counted
        (Layout.entryAt ⟨config.stages⟩ index)⟩) (turns : Nat) :
    Comes clock goal turns context ⟨number, .bounded limit 0, .awaitRecord duty⟩ := by
  have hmore := Nat.lt_of_lt_of_le hreach (reach_le hstart)
  have hstamp := h.comes_published hlast hclock (Nat.le_of_lt hmore) hgoal
  have hfound := h.turn_found hmore (.bounded limit 0) (clock turns)
  by_cases hone : number = 1
  · rw [if_pos hone] at hfound
    exact .turn rfl hfound (hstamp (turns + 1))
  · obtain ⟨previous, hsome, -, hcompleted⟩ := h.hasCompleted (by omega) (Nat.le_of_lt hmore)
    rw [decide_eq_true (by rw [reach, if_neg hone] at hreach; omega)] at hcompleted
    rw [if_neg hone] at hfound
    refine .turn rfl hfound (.turn rfl ?_ (hstamp (turns + 2)))
    simp only [turn, Duty.behind, hsome, Layout.entryAt, hcompleted, if_true]
    rfl

include hlimit

/-- From in front of any record within reach the stage comes to its end. -/
theorem Facing.comes (hreach : index ≤ reach start number) (hbefore : ∀ other < index,
      (start.log.record (Layout.viewAt ⟨config.stages⟩ other)).isLast = false) (turns : Nat) :
    Comes clock (Ends clock start number (ending start number limit)) turns context
      ⟨number, .bounded limit 0, .awaitRecord duty⟩ := by
  obtain ⟨left, hleft⟩ := Nat.exists_eq_add_of_le hreach
  induction left generalizing context index duty turns with
  | zero =>
      have hwithin : reach start number ≤ committed := reach_le hstart
      by_cases hall : index = committed
      · exact h.comes_short hstart hlimit hall (by omega) hbefore turns
      · exact h.comes_held hstart hlimit (by omega) (by omega) hfirst hbefore turns
  | succ left ih =>
      refine h.comes_past hstart hfirst hlast hclock (by omega) (fun turns moment => ?_) turns
      have hnext := h.complete hlast moment
      have hturn := published_turn (completing context number index (clock moment) duty.gate)
        number (.bounded limit 0) (duty.behind ⟨config.stages⟩ index).counted
        (Layout.entryAt ⟨config.stages⟩ index) (clock turns)
      rw [Layout.entryAt, hnext.isLast hlast index] at hturn
      cases hthis : (start.log.record (Layout.viewAt ⟨config.stages⟩ index)).isLast with
      | true =>
          have hending : ending start number limit = _ :=
            ending_done hstart (by omega) hthis hbefore
          rw [hthis, if_pos rfl, hnext.processed] at hturn
          refine .turn rfl hturn (.here ⟨?_, ?_⟩)
          · rw [hending]
            rfl
          · rw [hending]
            exact hnext.completed.say _
      | false =>
          rw [hthis, if_neg Bool.false_ne_true] at hturn
          refine .turn rfl hturn (ih hnext (by omega) (fun other hother => ?_) _ (by omega))
          rcases Nat.lt_succ_iff_lt_or_eq.mp hother with hearlier | rfl
          · exact hbefore other hearlier
          · exact hthis

end Run

section Begin

variable {clock : Nat → Nat} {config : Run.Config} {committed limit : Nat}
  {start : Run.Context} {number : Nat} (hstart : start.InUse config committed)
  (hown : start.gate number = -1) (hlimit : limit + 1 < wordLimit)
  (hfirst : 1 ≤ number) (hlast : number ≤ config.stages)
  (hclock : ∀ delay, config.delayOf number = some delay → ∀ moment, ∃ later > moment,
    delayEnd (clock moment) delay ≤ clock later)

include hstart hfirst hlast

/-- The stage is only refused a gate if the path to its file is too long. -/
theorem refusal_long {failure : Failure} (hrefused : refusal start number = some failure) :
    ∃ stage, (stage = number ∨ stage + 1 = number) ∧
      Storage.longestPath < (start.gatePath stage).utf8ByteSize := by
  have hfew : number ≤ maxStages := by
    have hstages := hstart.log.sound.layout.few_stages
    rw [hstart.log.layout_eq] at hstages
    exact Nat.le_trans hlast hstages
  rcases hstart.openGate (Gate.ofStage_slash number) with
    ⟨reason, hopen⟩ | ⟨context, gate, hopen, huse, hopened⟩
  · exact ⟨number, .inl rfl, hstart.refused hfew hopen⟩
  · simp only [refusal, hopen] at hrefused
    split at hrefused
    · cases hrefused
    · rcases huse.openGate (Gate.ofStage_slash (number - 1)) with
        ⟨reason, hprevious⟩ | ⟨ready, previous, hprevious, -, -⟩
      · have hlong := huse.refused (Nat.le_trans (Nat.sub_le number 1) hfew) hprevious
        rw [Run.Context.gatePath, hopened.directory] at hlong
        exact ⟨number - 1, .inr (Nat.sub_add_cancel hfirst), hlong⟩
      · rw [hprevious] at hrefused
        cases hrefused

include hlimit hclock

/-- With its gates open the stage stands in front of the first record. -/
theorem comes_opened {context : Run.Context} (huse : context.InUse config committed)
    (hcompleted : Completed clock start context number 0) {gate : Gate} {previous : Option Gate}
    (hgate : context.gates.find (Gate.ofStage number) = some gate)
    (hprevious : if number = 1 then previous = none
      else ∃ first, previous = some first ∧
        context.gates.find (Gate.ofStage (number - 1)) = some first)
    (hgranted : refusal start number = none) (event : Event) (turns : Nat) :
    Comes clock (Ends clock start number (result start number limit)) turns (context.say event)
      ⟨number, .bounded limit 0, .awaitRecord ⟨gate, previous, .start, 0⟩⟩ := by
  have hfacing : Facing clock config committed start (context.say event) number 0
      ⟨gate, previous, .start, 0⟩ :=
    ⟨hcompleted.say event, huse.log, huse.gates.apart, hgate, hprevious, Tailer.start_stands _, rfl,
      huse.config⟩
  rw [result, hgranted]
  exact hfacing.comes hstart.log hlimit hfirst hlast hclock (Nat.zero_le _) nofun turns

/-- With its own gate open the stage opens that of the stage before. -/
theorem comes_previous {context : Run.Context} (huse : context.InUse config committed)
    (hcompleted : Completed clock start context number 0) {gate : Gate}
    (hopen : start.openGate (Gate.ofStage number) = (context, .ok gate))
    (hgate : context.gates.find (Gate.ofStage number) = some gate) (hone : number ≠ 1)
    (turns : Nat) : Comes clock (Ends clock start number (result start number limit)) turns context
      ⟨number, .bounded limit 0, .openPrevious gate⟩ := by
  rcases huse.openGate (Gate.ofStage_slash (number - 1)) with
    ⟨failure, hprevious⟩ | ⟨ready, previous, hprevious, hready, hopened⟩
  · have hresult : result start number limit = (0, .error (.failed failure)) := by
      simp only [result, refusal, hopen, if_neg hone, hprevious]
    have hturn : turn (clock turns) context ⟨number, .bounded limit 0, .openPrevious gate⟩ =
        (context, ⟨number, .bounded limit 0, .over (.error (.failed failure))⟩) := by
      simp only [turn, hprevious]
    rw [hresult]
    exact .turn rfl hturn (.here ⟨rfl, hcompleted⟩)
  · have hgranted : refusal start number = none := by
      simp only [refusal, hopen, if_neg hone, hprevious]
    have hturn : turn (clock turns) context ⟨number, .bounded limit 0, .openPrevious gate⟩ =
        (ready.say (.stageStarted number (some previous.id)),
          ⟨number, .bounded limit 0, .awaitRecord ⟨gate, some previous, .start, 0⟩⟩) := by
      simp only [turn, hprevious]
    have hfound : if number = 1 then some previous = none
        else ∃ first, some previous = some first ∧
          ready.gates.find (Gate.ofStage (number - 1)) = some first := by
      rw [if_neg hone]
      exact ⟨previous, rfl, hopened.gates.found⟩
    exact .turn rfl hturn (comes_opened hstart hlimit hfirst hlast hclock hready
      (hcompleted.opened hopened) (hopened.gates.kept _ _ hgate) hfound hgranted _ _)

include hown

theorem comes_begin (turns : Nat) :
    Comes clock (Ends clock start number (result start number limit))
    turns start (.start number (.boundedBy limit)) := by
  have hrange : ¬ (number = 0 ∨ config.stages < number) := by omega
  have hnone : Completed clock start start number 0 := completed_none hown
  rcases hstart.openGate (Gate.ofStage_slash number) with
    ⟨failure, hopen⟩ | ⟨context, gate, hopen, huse, hopened⟩
  · have hresult : result start number limit = (0, .error (.failed failure)) := by
      simp only [result, refusal, hopen]
    have hturn : turn (clock turns) start (.start number (.boundedBy limit)) =
        (start, ⟨number, .bounded limit 0, .over (.error (.failed failure))⟩) := by
      simp only [turn, Stage.start, hstart.config, if_neg hrange, hopen]
      rfl
    rw [hresult]
    exact .turn rfl hturn (.here ⟨rfl, hnone⟩)
  · have hcompleted := hnone.opened hopened
    have hturn : turn (clock turns) start (.start number (.boundedBy limit)) =
        if number = 1 then (context.say (.stageStarted number none),
          ⟨number, .bounded limit 0, .awaitRecord ⟨gate, none, .start, 0⟩⟩)
        else (context, ⟨number, .bounded limit 0, .openPrevious gate⟩) := by
      simp only [turn, Stage.start, hstart.config, if_neg hrange, hopen]
      rfl
    by_cases hone : number = 1
    · rw [if_pos hone] at hturn
      have hgranted : refusal start number = none := by simp only [refusal, hopen, if_pos hone]
      exact .turn rfl hturn (comes_opened hstart hlimit hfirst hlast hclock huse hcompleted
        hopened.gates.found (by rw [if_pos hone]) hgranted _ _)
    · rw [if_neg hone] at hturn
      exact .turn rfl hturn (comes_previous hstart hlimit hfirst hlast hclock huse hcompleted hopen
        hopened.gates.found hone _)

end Begin

/-- A stage on a run that nobody else works on, whatever has been done with the log and the gates
of the run before. One that the run does not have is refused. Any other whose gate is at `-1` is
over after some turns, given a clock that passes its delay: it has completed the records up to the
first that announces no other, or those within its reach, and has changed nothing else. Only where
the path to one of its two gates is too long is it refused that gate, and completes nothing. -/
theorem ends_alone {storage : Storage} {config : Run.Config} {fresh : Run.Context}
    (htree : storage.IsTree) (hnumbered : storage.Numbered)
    (hcreate : Run.Context.create storage config = .ok fresh) (calls : List Log.Call)
    {acts : List Gates.Act} (hacts : ∀ act ∈ acts, act.Named ∧ act.directory = none)
    (aborted : Bool) (number : Nat) {limit : Nat} (hlimit : limit < wordLimit - 1)
    (clock : Nat → Nat)
    (hclock : ∀ delay, config.delayOf number = some delay → ∀ moment, ∃ later > moment,
      delayEnd (clock moment) delay ≤ clock later) :
    let context := fresh.used calls acts aborted
    let stage := Stage.start number (.boundedBy limit)
    context.log.entries =
        (List.range context.log.entries.length).map context.log.layout.entryAt ∧
      (number = 0 ∨ config.stages < number → ∀ fuel, 1 ≤ fuel →
        runAlone clock fuel 0 context (.stage stage) = (context, .stage ⟨number, .boundedBy limit,
          .over (.error (.of (.stageOutOfRange number config.stages)))⟩, 1)) ∧
      (1 ≤ number → number ≤ config.stages → context.gate number = -1 → ∃ turns after ended,
        (∀ fuel, turns ≤ fuel →
          runAlone clock fuel 0 context (.stage stage) = (after, .stage ended, turns)) ∧
        Ends clock context number (result context number limit) after ended) ∧
      (1 ≤ number → number ≤ config.stages → ∀ failure, refusal context number = some failure →
        ∃ stage, (stage = number ∨ stage + 1 = number) ∧
          Storage.longestPath < (context.gatePath stage).utf8ByteSize) := by
  intro context stage
  obtain ⟨place, hfresh⟩ := Run.Context.create_fresh htree hcreate
  obtain ⟨committed, hstart⟩ : ∃ committed, context.InUse config committed :=
    hfresh.used (Run.Context.create_numbered hnumbered hcreate) calls hacts aborted
  refine ⟨?_, fun hrange fuel hfuel => ?_, fun hfirst hlast hown => ?_,
    fun hfirst hlast failure => refusal_long hstart hfirst hlast⟩
  · rw [hstart.log.layout_eq, hstart.log.entries, List.length_map, List.length_range]
  · obtain ⟨rest, rfl⟩ := Nat.exists_eq_add_of_le' hfuel
    have hturn : turn (clock 0) context stage = (context, ⟨number, .boundedBy limit,
        .over (.error (.of (.stageOutOfRange number config.stages)))⟩) := by
      simp only [stage, turn, Stage.start, hstart.config, if_pos hrange]
    have hwork : (Worker.stage stage).isOver = false := rfl
    rw [runAlone, hwork, if_neg Bool.false_ne_true]
    simp only [Worker.turn, hturn]
    exact runAlone_over rfl rest
  · have hcomes := comes_begin hstart hown (show limit + 1 < wordLimit by omega) hfirst hlast
      hclock 0
    obtain ⟨turns, after, ended, hends, hrun⟩ :=
      hcomes.runAlone fun _ _ hends => by rw [hends.outcome]; rfl
    rw [Nat.zero_add] at hrun
    exact ⟨turns, after, ended, hrun, hends⟩

/-- The second stage of a run whose first has completed two of three records: it completes the two
and gives up in front of the third, which would be the last. -/
theorem ends_alone_held :
    let config : Run.Config := ⟨2, 4, none, "/out", 0, 500000, 1000000000, [0, 5], []⟩
    let calls : List Log.Call := [.take, .use (.append [3, 10, 0, 0]), .use (.append [7, 20, 1, 0]),
      .use (.append [0, 30, 0, 0])]
    let acts : List Gates.Act := [.publish 0 "stage-1" 1, .publish 0 "spare" 4]
    ∃ fresh turns after ended, Run.Context.create .empty config = .ok fresh ∧
      runAlone (1000 + ·) turns 0 (fresh.used calls acts false)
        (.stage (.start 2 (.boundedBy 1))) = (after, .stage ended, turns) ∧
      ended.outcome =
        some (.error (.failed ⟨[.awaitingGate 2 "stage-1" 2], .noProgress 1⟩)) ∧
      Completed (1000 + ·) (fresh.used calls acts false) after 2 2 := by
  intro config calls acts
  have hshown : (Run.Context.create .empty config).toOption.map (fun fresh =>
      let context := fresh.used calls acts false
      (context.gate 2, result context 2 1)) =
        some (-1, 2, .error (.failed ⟨[.awaitingGate 2 "stage-1" 2], .noProgress 1⟩)) := by
    decide +kernel
  have hclock : ∀ delay, config.delayOf 2 = some delay → ∀ moment, ∃ later > moment,
      delayEnd (1000 + moment) delay ≤ 1000 + later := by
    intro delay hdelay moment
    obtain rfl : 5 = delay := Option.some.inj hdelay
    refine ⟨moment + 5, by omega, ?_⟩
    simp only [delayEnd, wordLimit]
    omega
  cases hcreate : Run.Context.create .empty config with
  | error problem => simp [hcreate, Except.toOption] at hshown
  | ok fresh =>
      obtain ⟨-, -, hruns, -⟩ :=
        ends_alone Storage.empty_isTree Storage.empty_numbered hcreate calls
        (show ∀ act ∈ acts, act.Named ∧ act.directory = none by decide) false 2
        (show 1 < wordLimit - 1 by decide) (1000 + ·) hclock
      simp only [hcreate, Except.toOption, Option.map_some, Option.some.injEq, Prod.mk.injEq]
        at hshown
      obtain ⟨hown, hresult⟩ := hshown
      obtain ⟨turns, after, ended, hrun, hends⟩ := hruns (by decide) (by decide) hown
      rw [hresult] at hends
      exact ⟨fresh, turns, after, ended, rfl, hrun turns (Nat.le_refl _), hends.outcome,
        hends.completed⟩

end Worker.Stage

end GatedPipeline
