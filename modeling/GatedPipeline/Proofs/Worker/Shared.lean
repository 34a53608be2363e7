import GatedPipeline.Proofs.Run.Fresh
import GatedPipeline.Proofs.Worker.Tally

/-!
The shared state of a run beside a tally: the log holds the records produced, with the times of the
tally in their slots, and every gate stands at the last record its stage has completed. Each shared
action of a worker, appending, stamping, opening a gate or publishing, takes both to such a pair
again.
-/

namespace GatedPipeline

namespace Worker

/-- The producer's writes do not break on a record with a slot for one stage at least. -/
theorem Producer.fill_works {words : Nat} (hwords : 1 < words) (hsmall : words < wordLimit)
    (count index now : Nat) : ∀ edit ∈ fill count index now, edit.Works words := by
  intro edit hedit
  simp only [fill, List.mem_cons, List.not_mem_nil, or_false] at hedit
  rcases hedit with rfl | rfl
  · exact ⟨_, Edit.target_remaining words (by omega) _⟩
  · exact ⟨_, Edit.target_stamp words 0 (by omega) hsmall _⟩

namespace Tally

/-- The words of the records, as a tally has them. -/
def content (tally : Tally) (count index : Nat) : (word : Nat) → Word
  | 0 => if index < tally.stamped 0 then Word.ofSigned (Producer.toCome count index) else 0
  | slot + 1 => UInt64.ofNat ((tally.times slot).getD index 0)

private theorem getD_snoc (times : List Nat) (time index : Nat) :
    (times ++ [time]).getD index 0 = if index = times.length then time else times.getD index 0 := by
  simp only [List.getD_eq_getElem?_getD, List.getElem?_append, List.getElem?_singleton]
  by_cases hlast : index = times.length
  · simp [hlast]
  · by_cases hbefore : index < times.length
    · simp [hbefore, hlast]
    · have hbeyond : ¬ index - times.length = 0 := by omega
      simp [hbefore, hlast, hbeyond]

theorem content_stamp (tally : Tally) (count time : Nat) {slot : Nat} (hslot : 1 ≤ slot)
    (index word : Nat) : (tally.stamp slot time).content count index word =
      if index = tally.stamped slot ∧ word = slot + 1 then UInt64.ofNat time
      else tally.content count index word := by
  cases word with
  | zero => simp [content, show ¬ 0 = slot by omega]
  | succ other =>
      simp only [content, stamp, Nat.succ.injEq, stamped]
      by_cases hsame : other = slot
      · subst hsame
        simp only [if_true, and_true, getD_snoc]
        split <;> rfl
      · simp [hsame]

theorem content_produce (tally : Tally) {words count : Nat} (hwords : 2 < words)
    (hsmall : words < wordLimit) (now index word : Nat) :
    Log.filledWith words (tally.stamped 0) (Producer.fill count (tally.stamped 0) now)
        (tally.content count) index word = (tally.stamp 0 now).content count index word := by
  have hremaining := Edit.target_remaining words (by omega)
    (Producer.toCome count (tally.stamped 0))
  have hstamp := Edit.target_stamp words 0 (by omega) hsmall (UInt64.ofNat now)
  simp only [Log.filledWith, Producer.fill, Edit.written, Edit.writes, hremaining, hstamp]
  by_cases hindex : index = tally.stamped 0
  · subst hindex
    cases word with
    | zero => simp [content]
    | succ slot =>
        cases slot with
        | zero => simp [content, stamp, stamped]
        | succ slot => simp [content, stamp]
  · rw [if_neg hindex]
    cases word with
    | zero =>
        have hsame : index < tally.stamped 0 + 1 ↔ index < tally.stamped 0 := by omega
        simp [content, hsame]
    | succ slot =>
        cases slot with
        | zero =>
            simp only [content, stamp, if_true, getD_snoc]
            rw [if_neg (show ¬ index = (tally.times 0).length from hindex)]
        | succ slot => simp [content, stamp]

theorem content_complete (tally : Tally) (count stage : Nat) :
    (tally.complete stage).content count = tally.content count := by
  funext index word
  cases word <;> rfl

end Tally

end Worker

namespace Run.Context

/-- What comes of a piece of work on the log is what it makes of the log. -/
theorem onLog_log {α : Type} {context after : Context} {work : Log → Log × α} {answer : α}
    (h : context.onLog work = (after, answer)) : work context.log = (after.log, answer) := by
  have hlog : (work context.log).1 = after.log := congrArg (·.1.log) h
  have hanswer : (work context.log).2 = answer := congrArg (·.2) h
  rw [← hlog, ← hanswer]

/-- The value of a stage's gate; a gate that is not open counts as `-1`. -/
def gate (context : Context) (stage : Nat) : Int := context.gates.value context.storage stage

open Worker

/-- The shared state has what the tally says, and no gates are open but those of the run's stages.
-/
structure Shows (context : Context) (config : Config) (place : Storage.Place) (tally : Tally) :
    Prop where
  log : context.log.Holds (tally.stamped 0) (tally.content config.count)
  layout : context.log.layout = ⟨config.stages⟩
  room : config.count ≤ context.log.room
  sound : context.gates.Sound context.storage place
  directory : context.gates.directory = context.directory
  gates : ∀ stage, 1 ≤ stage → stage ≤ config.stages →
    context.gate stage = (tally.completed stage : Int) - 1
  opened : ∀ stage, (context.gates.find (Gate.ofStage stage)).isSome →
    1 ≤ stage ∧ stage ≤ config.stages
  config : context.config = config

/-- A gate that was open stays open, as the same gate. -/
def Keeps (context after : Context) : Prop := ∀ stage gate,
  context.gates.find (Gate.ofStage stage) = some gate →
    after.gates.find (Gate.ofStage stage) = some gate

theorem Keeps.refl (context : Context) : context.Keeps context := fun _ _ h => h

section Shows

variable {context : Context} {config : Config} {place : Storage.Place} {tally : Tally}

theorem Fresh.shows (h : context.Fresh config place) : context.Shows config place .start :=
  ⟨h.log.congr fun index word _ => by cases word <;> rfl, h.layout, h.room, h.sound,
    by rw [h.gates], fun stage _ _ => by rw [gate, h.gates]; rfl,
    fun stage hopen => by simp [h.gates, Registry.find] at hopen, h.config⟩

variable (h : context.Shows config place tally)

include h

theorem Shows.say (event : Event) : (context.say event).Shows config place tally :=
  ⟨h.log, h.layout, h.room, h.sound, h.directory, h.gates, h.opened, h.config⟩

theorem Shows.abort : context.abort.Shows config place tally :=
  ⟨h.log, h.layout, h.room, h.sound, h.directory, h.gates, h.opened, h.config⟩

theorem Shows.releaseAppender : context.releaseAppender.Shows config place tally :=
  ⟨h.log.taken false, h.layout, h.room, h.sound, h.directory, h.gates, h.opened, h.config⟩

theorem Shows.relog {log : Log} (hlayout : log.layout = context.log.layout)
    (hcapacity : log.capacity = context.log.capacity)
    (hlog : log.Holds (tally.stamped 0) (tally.content config.count)) :
    Shows { context with log := log } config place tally := by
  refine ⟨hlog, hlayout.trans h.layout, ?_, h.sound, h.directory, h.gates, h.opened, h.config⟩
  have hroom := h.room
  simp only [Log.room, hlayout, hcapacity] at hroom ⊢
  exact hroom

theorem Shows.takeAppender {after : Context} {result : Except Failure Appender}
    (htake : context.takeAppender = (after, result)) : after.Shows config place tally ∧
      after.gates = context.gates ∧ ∀ appender, result = .ok appender → appender = ⟨0, 0⟩ := by
  have hholds := h.log.taken true
  cases htaken : context.log.appenderTaken with
  | true =>
      simp only [Context.takeAppender, onLog, Log.takeAppender, htaken, if_true] at htake
      cases htake
      exact ⟨h, rfl, fun _ hok => by cases hok⟩
  | false =>
      simp only [Context.takeAppender, onLog, Log.takeAppender, htaken] at htake
      cases htake
      refine ⟨⟨hholds, h.layout, h.room, h.sound, h.directory, h.gates, h.opened, h.config⟩, rfl,
        fun _ hok => ?_⟩
      cases hok
      rfl

theorem Shows.small {index : Nat} (hindex : index ≤ tally.stamped 0) :
    (index : Int) < signedLimit :=
  Log.index_small h.log.sound (Nat.le_trans hindex h.log.fits)

theorem Shows.record (index : Nat) :
    context.log.record (Layout.viewAt ⟨config.stages⟩ index) =
      ⟨(List.range (config.stages + 2)).map (tally.content config.count index)⟩ := by
  have hrecord := Log.record_viewAt h.log index
  rw [h.layout] at hrecord
  exact hrecord

theorem Shows.remaining {index : Nat} (hindex : index < tally.stamped 0) :
    (context.log.record (Layout.viewAt ⟨config.stages⟩ index)).remaining =
      Producer.toCome config.count index := by
  rw [h.record, Record.remaining, List.range_succ_eq_map, List.map_cons, List.getD_cons_zero]
  simp only [Tally.content, if_pos hindex, Producer.toCome, Word.ofSigned_signed]

/-- The last record of a run is the one that announces none to come. -/
theorem Shows.isLast (hsmall : config.count < wordLimit) (index : Nat)
    (hindex : index < tally.stamped 0) (hcount : index < config.count) :
    (context.log.record (Layout.viewAt ⟨config.stages⟩ index)).isLast =
      decide (index + 1 = config.count) := by
  rw [Record.isLast, h.remaining hindex, Producer.toCome]
  simp only [Word.signed_eq_zero, Word.ofNat_eq_zero (show config.count - 1 - index < wordLimit by
    omega), decide_eq_decide]
  omega

theorem Shows.produce (hvalid : (Layout.mk config.stages).Valid) (now : Nat)
    (hmore : tally.stamped 0 < config.count) : ∃ after,
      context.onLog (fun log => log.appendWith
        (Layout.appenderAt ⟨config.stages⟩ (tally.stamped 0))
        (Producer.fill config.count (tally.stamped 0) now)) =
          (after, Layout.appenderAt ⟨config.stages⟩ (tally.stamped 0 + 1),
            .ok (tally.stamped 0)) ∧
      after.gates = context.gates ∧ after.Shows config place (tally.stamp 0 now) := by
  have hsome : 1 ≤ config.stages := hvalid.some_stage
  have hfew : config.stages ≤ 62 := hvalid.few_stages
  have hwords : 2 < context.log.layout.words := by
    rw [h.layout]
    simp only [Layout.words]
    omega
  have hsmall : context.log.layout.words < wordLimit := by
    rw [h.layout]
    simp only [Layout.words, wordLimit]
    omega
  have hworks := Producer.fill_works (by omega) hsmall config.count (tally.stamped 0) now
  obtain ⟨log, happend, hlayout, hcapacity, hholds⟩ :=
    Log.appendWith_room h.log hworks (Nat.lt_of_lt_of_le hmore h.room)
  refine ⟨{ context with log := log }, ?_, rfl, ?_, hlayout.trans h.layout, ?_, h.sound,
    h.directory, h.gates, h.opened, h.config⟩
  · simp only [onLog, ← h.layout, happend]
  · rw [Tally.stamped_stamp, if_pos rfl]
    exact hholds.congr fun index word _ => Tally.content_produce tally hwords hsmall now index word
  · have hroom := h.room
    simp only [Log.room, hlayout, hcapacity] at hroom ⊢
    exact hroom

theorem Shows.stamp (hvalid : (Layout.mk config.stages).Valid) (now : Nat) {stage : Nat}
    (hfirst : 1 ≤ stage) (hlast : stage ≤ config.stages) {after : Context}
    {result : Except Fault Unit}
    (hwork : context.onLog (fun log => log.edit
      (Layout.viewAt ⟨config.stages⟩ (tally.stamped stage)) (.stamp stage (UInt64.ofNat now))) =
        (after, result)) :
    after.gates = context.gates ∧ result = .ok () ∧
      after.Shows config place (tally.stamp stage now) := by
  have hfew : config.stages ≤ 62 := hvalid.few_stages
  have htarget : (Edit.stamp stage (UInt64.ofNat now)).target context.log.layout.words =
      .ok (stage + 1, UInt64.ofNat now) := by
    rw [h.layout]
    exact Edit.target_stamp _ stage (by simp only [Layout.words]; omega)
      (by simp only [Layout.words, wordLimit]; omega) _
  obtain ⟨log, hedit, hset, hholds⟩ := Log.edit_works h.log (tally.stamped stage) htarget
  simp only [onLog, ← h.layout, hedit] at hwork
  cases hwork
  subst hset
  refine ⟨rfl, rfl, ?_, h.layout, h.room, h.sound, h.directory, h.gates, h.opened, h.config⟩
  rw [Tally.stamped_stamp, if_neg (by omega)]
  exact hholds.congr fun index word _ =>
    (Tally.content_stamp tally config.count now hfirst index word).symm

theorem Shows.openGate {stage : Nat} (hfirst : 1 ≤ stage) (hlast : stage ≤ config.stages)
    {after : Context} {result : Except Failure Gate}
    (hopen : context.openGate (Gate.ofStage stage) = (after, result)) :
    context.Keeps after ∧ after.Shows config place tally ∧
      ∀ gate, result = .ok gate → after.gates.find (Gate.ofStage stage) = some gate := by
  simp only [Context.openGate] at hopen
  cases hresult : context.gates.open context.storage (Gate.ofStage stage) with
  | error failure =>
      rw [hresult] at hopen
      cases hopen
      exact ⟨Keeps.refl context,
        ⟨h.log, h.layout, h.room, h.sound, h.directory, h.gates, h.opened, h.config⟩,
        fun _ hok => by cases hok⟩
  | ok opened =>
      obtain ⟨storage, gates, gate⟩ := opened
      rw [hresult] at hopen
      cases hopen
      have hopens := h.sound.open hresult
      have hgates : ∀ other, 1 ≤ other → other ≤ config.stages →
          gates.value storage other = (tally.completed other : Int) - 1 := by
        intro other hfirst hlast
        exact (hopens.values other).trans (h.gates other hfirst hlast)
      have honly : ∀ other, (gates.find (Gate.ofStage other)).isSome →
          1 ≤ other ∧ other ≤ config.stages := by
        intro other hother
        rcases hopens.only other hother with rfl | hold
        · exact ⟨hfirst, hlast⟩
        · exact h.opened other hold
      refine ⟨hopens.kept, ⟨h.log, h.layout, h.room, hopens.sound,
        hopens.directory.trans h.directory, hgates, honly, h.config⟩, ?_⟩
      intro _ hok
      cases hok
      exact hopens.found

/-- Whoever asks the gate of a stage about a committed record learns whether the stage has completed
it. -/
theorem Shows.hasCompleted {stage : Nat} (hfirst : 1 ≤ stage) (hlast : stage ≤ config.stages)
    {gate : Gate} (hgate : context.gates.find (Gate.ofStage stage) = some gate) {index : Nat}
    (hindex : index < tally.stamped 0) :
    context.hasCompleted gate index = decide (index < tally.completed stage) := by
  have hvalue := h.gates stage hfirst hlast
  have hread : context.gate stage = gate.read context.storage := by
    simp [Context.gate, Registry.value, hgate]
  simp only [Context.hasCompleted, Gate.hasCompleted,
    Word.signed_ofNat (h.small (Nat.le_of_lt hindex)), decide_eq_decide]
  omega

/-- Publishing the record a stage has stamped: the gate does not move backwards. -/
theorem Shows.publish {stage : Nat} (hfirst : 1 ≤ stage) (hlast : stage ≤ config.stages)
    {gate : Gate} (hgate : context.gates.find (Gate.ofStage stage) = some gate) :
    gate.read context.storage ≤ (tally.completed stage : Int) ∧
      ∃ after, context.publish gate (tally.completed stage : Int) = (after, .ok ()) ∧
        after.gates = context.gates ∧ after.Shows config place (tally.complete stage) := by
  have hvalue := h.gates stage hfirst hlast
  have hread : context.gate stage = gate.read context.storage := by
    simp [Context.gate, Registry.value, hgate]
  obtain ⟨storage, hpublish, hsound, hvalues⟩ := h.sound.publish hgate
    (show context.gate stage ≤ (tally.completed stage : Int) by omega)
  refine ⟨by omega, { context with storage := storage }, ?_, rfl, ?_, h.layout, h.room, hsound,
    h.directory, ?_, h.opened, h.config⟩
  · simp only [Context.publish, hpublish]
  · rw [Tally.content_complete]
    exact h.log
  · intro other hother hothers
    apply (hvalues other).trans
    rw [Tally.completed_complete]
    by_cases hsame : other = stage
    · rw [if_pos hsame, if_pos hsame]
      omega
    · rw [if_neg hsame, if_neg hsame]
      exact h.gates other hother hothers

end Shows

end Run.Context

end GatedPipeline
