import GatedPipeline.Proofs.Log.Partway
import GatedPipeline.Proofs.Worker.Crew

/-!
The history of a run: every store that its workers make to the log, with who made it. The words of
the log are what the history leaves in them. A tally says which stores a word has had, so what holds
of tallies holds of what was written, by whom and how often.
-/

namespace GatedPipeline

namespace Log

def Store.valueAt (position : Nat) : Store → Option Word
  | .word other value => if other = position then some value else none
  | .writePosition _ | .appended _ => none

/-- What stores do to the words depends on the words alone. -/
theorem words_storeAll {log other : Log} (h : log.words = other.words) (stores : List Store) :
    (log.storeAll stores).words = (other.storeAll stores).words := by
  induction stores generalizing log other with
  | nil => exact h
  | cons store rest ih =>
      apply ih
      cases store with
      | word position value =>
          change log.words.set _ _ = other.words.set _ _
          rw [h]
      | writePosition position => exact h
      | appended records => exact h

section Values

variable (layout : Layout) (other : Nat) {word : Nat} (hword : word < layout.words)

include hword

private theorem valueAt_body (index : Nat) {target : Nat} (htarget : target < layout.words)
    (value : Word) :
    Store.valueAt (layout.bodyAt other + word * 8)
        (.word (layout.bodyAt index + target * 8) value) =
      if other = index ∧ word = target then some value else none := by
  have hiff : layout.bodyAt index + target * 8 = layout.bodyAt other + word * 8 ↔
      other = index ∧ word = target := by
    constructor
    · intro hsame
      have hplace := Layout.Place.position_injective layout (.body index target)
        (.body other word) htarget hword hsame
      cases hplace
      exact ⟨rfl, rfl⟩
    · rintro ⟨rfl, rfl⟩
      rfl
  simp only [Store.valueAt, hiff]

/-- The stores of a fill to one word of a record. -/
theorem valuesAt_fill {fill : List Edit} (hworks : ∀ edit ∈ fill, edit.Works layout.words)
    (index : Nat) : (fillStores (layout.bodyAt index) layout.words fill).1.filterMap
        (Store.valueAt (layout.bodyAt other + word * 8)) =
      if other = index then fill.filterMap (·.writes layout.words word) else [] := by
  induction fill with
  | nil => simp [fillStores]
  | cons edit rest ih =>
      obtain ⟨⟨target, value⟩, htarget⟩ := hworks edit (by simp)
      have hrest := ih fun other hother => hworks other (by simp [hother])
      have hvalue := valueAt_body layout other hword index (Edit.target_lt htarget) value
      cases hsplit : fillStores (layout.bodyAt index) layout.words rest with
      | mk stores outcome =>
          rw [hsplit] at hrest
          simp only [fillStores, htarget, hsplit, List.filterMap_cons, hvalue, hrest, Edit.writes]
          by_cases hsame : other = index
          · by_cases hat : word = target
            · simp [hsame, hat]
            · simp [hsame, hat, Ne.symm hat]
          · simp [hsame]

/-- The stores that commit a record go to no body. -/
theorem valuesAt_commit (count : Nat) : (layout.commitStores count).filterMap
    (Store.valueAt (layout.bodyAt other + word * 8)) = [] := by
  have hplace : ∀ place : Layout.Place, place.Real layout → place ≠ .body other word →
      place.position layout ≠ layout.bodyAt other + word * 8 :=
    fun place hreal hbody hsame => hbody
      (Layout.Place.position_injective layout place (.body other word) hreal hword hsame)
  have hheader := hplace (.header count) trivial (by simp)
  simp only [Layout.Place.position] at hheader
  by_cases hgap : layout.endAfter count < layout.headerAt count
  · have hfiller := hplace (.filler count) hgap (by simp)
    simp only [Layout.Place.position] at hfiller
    simp [Layout.commitStores, paddingStores, Nat.ne_of_gt hgap, hfiller, hheader, Store.valueAt]
  · have hbounds := layout.entry_bounds count
    rw [Layout.commitStores, paddingStores, if_pos (by omega)]
    simp [hheader, Store.valueAt]

end Values

end Log

namespace Worker

/-- Who writes a word of a record. -/
def Role.ofWord : (word : Nat) → Role
  | 0 | 1 => .producer
  | number + 2 => .stage (number + 1)

/-- The stores of a history to one position: who made them, and the words they left there. -/
def writesAt (history : List (Role × Log.Store)) (position : Nat) : List (Role × Word) :=
  history.filterMap fun write => (write.2.valueAt position).map (write.1, ·)

theorem writesAt_append (first second : List (Role × Log.Store)) (position : Nat) :
    writesAt (first ++ second) position = writesAt first position ++ writesAt second position :=
  List.filterMap_append

theorem writesAt_map (role : Role) (stores : List Log.Store) (position : Nat) :
    writesAt (stores.map (role, ·)) position =
      (stores.filterMap (Log.Store.valueAt position)).map (role, ·) := by
  simp only [writesAt, List.filterMap_map, List.map_filterMap]
  rfl

/-! ### The stores of one turn -/

/-- The stores to the log in one turn of a producer, in their order. -/
def Producer.stores (now : Nat) (context : Run.Context) (producer : Producer) : List Log.Store :=
  match producer.phase with
  | .write progress =>
      (context.log.plan progress.appender (fill context.config.count progress.index now)).stores
  | _ => []

def Stage.stores (now : Nat) (stage : Stage) : List Log.Store :=
  match stage.phase with
  | .stamp _ entry =>
      (Log.fillStores entry.view.body entry.view.words [.stamp stage.number (UInt64.ofNat now)]).1
  | _ => []

def stores (now : Nat) (context : Run.Context) : Worker → List Log.Store
  | .producer worker => worker.stores now context
  | .stage worker => worker.stores now

private theorem words_takeAppender (context : Run.Context) :
    context.takeAppender.1.log.words = context.log.words := by
  cases htaken : context.log.appenderTaken <;>
    simp [Run.Context.takeAppender, Run.Context.onLog, Log.takeAppender, htaken]

private theorem log_openGate (context : Run.Context) (id : String) :
    (context.openGate id).1.log = context.log := by
  simp only [Run.Context.openGate]
  split <;> rfl

private theorem log_publish (context : Run.Context) (gate : Gate) (index : Int) :
    (context.publish gate index).1.log = context.log := by
  simp only [Run.Context.publish]
  split <;> rfl

private theorem words_appendWith (log : Log) (appender : Appender) (fill : List Edit) :
    (log.appendWith appender fill).1 = log.storeAll (log.plan appender fill).stores := by
  rcases hplan : log.plan appender fill with ⟨stores, problem | after⟩ <;>
    simp [Log.appendWith, hplan]

private theorem words_edit (log : Log) (view : View) (edit : Edit) :
    (log.edit view edit).1 = log.storeAll (Log.fillStores view.body view.words [edit]).1 := by
  cases htarget : edit.target view.words <;>
    simp [Log.edit, Log.fillStores, htarget, Log.storeAll, Log.store]

private theorem Producer.words_turn (now : Nat) (context : Run.Context) (producer : Producer) :
    (producer.turn now context).1.log.words =
      (context.log.storeAll (producer.stores now context)).words := by
  obtain ⟨pause, phase⟩ := producer
  cases phase with
  | begin =>
      have htake := words_takeAppender context
      simp only [turn, stores]
      split
      · rfl
      · split <;> rename_i hresult <;> rw [hresult] at htake <;> exact htake
  | write progress =>
      have happend := words_appendWith context.log progress.appender
        (fill context.config.count progress.index now)
      simp only [turn, stores, Run.Context.onLog]
      rw [← happend]
      generalize context.log.appendWith progress.appender
        (fill context.config.count progress.index now) = appended
      obtain ⟨log, appender, problem | index⟩ := appended
      · rfl
      · dsimp only
        split
        · rfl
        · split <;> rfl
  | readStart appender interval => rfl
  | ready progress =>
      simp only [turn, stores]
      repeat' split
      all_goals rfl
  | missed progress =>
      simp only [turn, stores]
      repeat' split
      all_goals rfl
  | «over» outcome => rfl

private theorem Stage.words_turn (now : Nat) (context : Run.Context) (stage : Stage) :
    (stage.turn now context).1.log.words = (context.log.storeAll (stage.stores now)).words := by
  obtain ⟨number, pause, phase⟩ := stage
  cases phase with
  | begin =>
      have hopen := log_openGate context (Gate.ofStage number)
      simp only [turn, stores]
      split
      · rfl
      · split <;> rename_i hresult <;> rw [hresult] at hopen
        · exact congrArg Log.words hopen
        · split <;> exact congrArg Log.words hopen
  | openPrevious gate =>
      have hopen := log_openGate context (Gate.ofStage (number - 1))
      simp only [turn, stores]
      split <;> rename_i hresult <;> rw [hresult] at hopen <;> exact congrArg Log.words hopen
  | stamp duty entry =>
      have hedit := words_edit context.log entry.view (.stamp number (UInt64.ofNat now))
      simp only [turn, stores, Run.Context.onLog]
      rw [← hedit]
      generalize context.log.edit entry.view (.stamp number (UInt64.ofNat now)) = edited
      obtain ⟨log, fault | ⟨⟩⟩ := edited
      · rfl
      · dsimp only
        split <;> rfl
  | publish duty entry =>
      have hpublish := log_publish context duty.gate (gateValue entry)
      simp only [turn, stores]
      split <;> rename_i hresult <;> rw [hresult] at hpublish <;> exact congrArg Log.words hpublish
  | awaitRecord duty | missedRecord duty | awaitPrevious duty entry | missedPrevious duty entry
  | published duty entry =>
      simp only [turn, stores]
      repeat' split
      all_goals rfl
  | startDelay duty entry delay | spin duty entry deadline | «over» outcome => rfl

/-- The words of the log change in a worker's turn by its stores alone. -/
theorem words_turn (now : Nat) (context : Run.Context) (worker : Worker) :
    (worker.turn now context).1.log.words =
      (context.log.storeAll (worker.stores now context)).words := by
  cases worker with
  | producer worker => exact worker.words_turn now context
  | stage worker => exact worker.words_turn now context

namespace Tally

/-- The stores that a word of a record has had, as a tally knows them. -/
def writes (tally : Tally) (count index : Nat) : (word : Nat) → List (Role × Word)
  | 0 =>
      if index < tally.stamped 0 then
        [(.producer, Word.ofSigned (Producer.toCome count index))]
      else []
  | slot + 1 =>
      (tally.times slot)[index]?.toList.map fun time => (Role.ofWord (slot + 1), UInt64.ofNat time)

theorem writes_start (count index word : Nat) : start.writes count index word = [] := by
  cases word <;> simp [writes, start, stamped]

/-- No word is stored to twice, nor by any worker but the one whose word it is. -/
theorem writes_once (tally : Tally) (count index word : Nat) :
    (tally.writes count index word).length ≤ 1 ∧
      ∀ write ∈ tally.writes count index word, write.1 = Role.ofWord word := by
  cases word with
  | zero =>
      simp only [writes]
      split <;> simp [Role.ofWord]
  | succ slot => cases h : (tally.times slot)[index]? <;> simp [writes, h]

/-- A slot has been stored to once its time is in the tally. -/
theorem writes_slot (tally : Tally) (count index slot : Nat) :
    tally.writes count index (slot + 1) ≠ [] ↔ index < tally.stamped slot := by
  by_cases h : index < tally.stamped slot
  · simp [writes, List.getElem?_eq_getElem h, h]
  · simp [writes, List.getElem?_eq_none (Nat.not_lt.mp h), h]

/-- A word is what the last store to it left, and zero before the first. -/
theorem content_writes (tally : Tally) (count index word : Nat) :
    tally.content count index word =
      ((tally.writes count index word).getLast?.map Prod.snd).getD 0 := by
  cases word with
  | zero =>
      simp only [content, writes]
      split <;> rfl
  | succ slot => cases h : (tally.times slot)[index]? <;> simp [content, writes, h]

private theorem getElem?_snoc (times : List Nat) (time index : Nat) :
    (times ++ [time])[index]?.toList =
      times[index]?.toList ++ if index = times.length then [time] else [] := by
  rw [List.getElem?_append, List.getElem?_singleton]
  by_cases hlast : index = times.length
  · simp [hlast]
  · by_cases hbefore : index < times.length
    · simp [hbefore, hlast]
    · have hbeyond : ¬ index - times.length = 0 := by omega
      simp [hbefore, hlast, hbeyond]

theorem writes_stamp (tally : Tally) (count time : Nat) {slot : Nat} (hslot : 1 ≤ slot)
    (index word : Nat) : (tally.stamp slot time).writes count index word =
      tally.writes count index word ++
        if index = tally.stamped slot ∧ word = slot + 1 then
          [(Role.ofWord word, UInt64.ofNat time)]
        else [] := by
  cases word with
  | zero => simp [writes, show ¬ 0 = slot by omega]
  | succ other =>
      simp only [writes, stamp, Nat.succ.injEq, stamped]
      by_cases hsame : other = slot
      · subst hsame
        simp only [if_true, and_true, getElem?_snoc, List.map_append]
        split <;> rfl
      · simp [hsame]

/-- Producing a record is one store more to its first two words. -/
theorem writes_produce (tally : Tally) (count now index word : Nat) :
    (tally.stamp 0 now).writes count index word =
      tally.writes count index word ++
        if index = tally.stamped 0 then
          match word with
          | 0 => [(.producer, Word.ofSigned (Producer.toCome count index))]
          | 1 => [(.producer, UInt64.ofNat now)]
          | _ => []
        else [] := by
  cases word with
  | zero =>
      simp only [writes, stamped_stamp, if_true]
      by_cases hindex : index = tally.stamped 0
      · simp [hindex]
      · have hsame : index < tally.stamped 0 + 1 ↔ index < tally.stamped 0 := by omega
        simp [hindex, hsame]
  | succ slot =>
      cases slot with
      | zero =>
          simp only [writes, stamp, if_true, stamped, getElem?_snoc, List.map_append]
          split <;> rfl
      | succ slot => simp [writes, stamp]

theorem writes_complete (tally : Tally) (count stage : Nat) :
    (tally.complete stage).writes count = tally.writes count := by
  funext index word
  cases word <;> rfl

end Tally

section Follows

variable {config : Run.Config} {place : Storage.Place} {context : Run.Context} {tally : Tally}
  (hlayout : (Layout.mk config.stages).Valid) (hshows : context.Shows config place tally)
  {word : Nat} (hword : word < config.stages + 2) (now index : Nat)

include hlayout hshows hword

private theorem Producer.Follows.writes {producer : Producer} (h : producer.Follows config tally) :
    (producer.next now tally).writes config.count index word =
      tally.writes config.count index word ++
        writesAt ((producer.stores now context).map (Role.producer, ·))
          (Layout.bodyAt ⟨config.stages⟩ index + word * 8) := by
  have hsome := hlayout.some_stage
  have hfew := hlayout.few_stages
  obtain ⟨pause, phase⟩ := producer
  cases phase with
  | write progress =>
      obtain ⟨halong, hmore⟩ := h
      have hsmall : config.stages + 2 < wordLimit := by
        simp only [maxStages, wordLimit] at *
        omega
      have hworks := fill_works (show 1 < config.stages + 2 by omega) hsmall config.count
        (tally.stamped 0) now
      have hworks' : ∀ edit ∈ fill config.count (tally.stamped 0) now,
          edit.Works context.log.layout.words := by
        rw [hshows.layout]
        exact hworks
      have hplan := Log.plan_stores hshows.log.sound hshows.log.fits hworks'
        (Nat.lt_of_lt_of_le hmore hshows.room)
      rw [hshows.layout] at hplan
      simp only [next, stores, halong.appender, halong.index, hshows.config, hplan,
        Tally.writes_produce, List.map_append, writesAt_append, writesAt_map,
        Log.valuesAt_fill ⟨config.stages⟩ index hword hworks,
        Log.valuesAt_commit ⟨config.stages⟩ index hword]
      have hremaining := Edit.target_remaining (config.stages + 2) (by omega)
        (toCome config.count (tally.stamped 0))
      have hstamp := Edit.target_stamp (config.stages + 2) 0 (by omega) hsmall (UInt64.ofNat now)
      by_cases hindex : index = tally.stamped 0
      · subst hindex
        simp only [if_true, fill, Layout.words, List.filterMap_cons, Edit.writes, hremaining,
          hstamp]
        rcases word with _ | _ | slot <;> simp
      · simp [hindex]
  | _ => simp [next, stores, writesAt]

omit hshows in
private theorem Stage.Follows.writes {stage : Stage} (hfirst : 1 ≤ stage.number)
    (hlast : stage.number ≤ config.stages) (h : stage.Follows config context.gates tally) :
    (stage.next now tally).writes config.count index word =
      tally.writes config.count index word ++
        writesAt ((stage.stores now).map (Role.stage stage.number, ·))
          (Layout.bodyAt ⟨config.stages⟩ index + word * 8) := by
  have hfew := hlayout.few_stages
  obtain ⟨number, pause, phase⟩ := stage
  cases phase with
  | stamp duty entry =>
      obtain ⟨⟨halong, hentry⟩, -⟩ := h
      have hstamped := halong.stamped
      simp only at hentry hstamped
      have hsmall : config.stages + 2 < wordLimit := by
        simp only [maxStages, wordLimit] at *
        omega
      have htarget := Edit.target_stamp (config.stages + 2) number
        (by simp only at hlast; omega) hsmall (UInt64.ofNat now)
      have hworks : ∀ edit ∈ [Edit.stamp number (UInt64.ofNat now)],
          edit.Works (config.stages + 2) := fun edit hedit =>
        List.mem_singleton.mp hedit ▸ ⟨_, htarget⟩
      have hrole : Role.ofWord (number + 1) = .stage number := by
        obtain ⟨before, rfl⟩ := Nat.exists_eq_add_of_le' hfirst
        rfl
      simp only [next, stores, Tally.writes_stamp tally config.count now hfirst, writesAt_map,
        hentry, Layout.entryAt, Layout.viewAt, ← hstamped]
      rw [Log.valuesAt_fill ⟨config.stages⟩ index hword hworks]
      simp only [Layout.words, List.filterMap_cons, List.filterMap_nil, Edit.writes, htarget]
      by_cases hindex : index = tally.stamped number
      · by_cases hat : word = number + 1
        · simp [hindex, hat, hrole]
        · simp [hindex, hat, Ne.symm hat]
      · simp [hindex]
  | publish duty entry => simp [next, stores, writesAt, Tally.writes_complete]
  | _ => simp [next, stores, writesAt]

/-- In a worker's turn a word of a record has the stores that the tally gains for it, and no
others. -/
theorem Follows.writes {worker : Worker} (h : worker.Follows config context.gates tally) :
    (worker.next now tally).writes config.count index word =
      tally.writes config.count index word ++
        writesAt ((worker.stores now context).map (worker.role, ·))
          (Layout.bodyAt ⟨config.stages⟩ index + word * 8) := by
  cases worker with
  | producer worker => exact Producer.Follows.writes hlayout hshows hword now index h
  | stage worker =>
      exact Stage.Follows.writes hlayout hword now index h.1 h.2.1 h.2.2

end Follows

end Worker

namespace Crew

open Worker

/-- The stores to the log in one step, with who makes them. -/
def stores (crew : Crew) : Step → List (Role × Log.Store)
  | .work index now =>
      match crew.workers[index]? with
      | none => []
      | some worker => (worker.stores now crew.context).map (worker.role, ·)
  | .abort => []

/-- The stores to the log in a sequence of steps, in their order. -/
def history (crew : Crew) : List Step → List (Role × Log.Store)
  | [] => []
  | step :: rest => crew.stores step ++ (crew.step step).history rest

private theorem words_step (crew : Crew) (step : Step) :
    (crew.step step).context.log.words =
      (crew.context.log.storeAll ((crew.stores step).map Prod.snd)).words := by
  obtain ⟨context, workers⟩ := crew
  cases step with
  | work index now =>
      cases hworker : workers[index]? with
      | none => simp only [Crew.step, stores, hworker]; rfl
      | some worker =>
          simp only [Crew.step, stores, hworker, List.map_map, Function.comp_def, List.map_id']
          exact worker.words_turn now context
  | abort => rfl

/-- No store is missing from the history: it leaves the words that the log has after the steps. -/
theorem words_run (crew : Crew) (steps : List Step) :
    (crew.run steps).context.log.words =
      (crew.context.log.storeAll ((crew.history steps).map Prod.snd)).words := by
  induction steps generalizing crew with
  | nil => rfl
  | cons step rest ih =>
      rw [history, List.map_append, Log.storeAll_append]
      exact (ih (crew.step step)).trans (Log.words_storeAll (words_step crew step) _)

section InStep

variable {crew : Crew} {config : Run.Config} {place : Storage.Place} {tally : Tally}
  (h : crew.InStep config place tally) {word : Nat} (hword : word < config.stages + 2) (index : Nat)

include h hword

private theorem InStep.writes_step (step : Step) :
    (crew.next tally step).writes config.count index word =
      tally.writes config.count index word ++
        writesAt (crew.stores step) (Layout.bodyAt ⟨config.stages⟩ index + word * 8) := by
  cases step with
  | work at' now =>
      cases hworker : crew.workers[at']? with
      | none => simp [Crew.next, stores, hworker, writesAt]
      | some worker =>
          have hfollows := h.follows worker (List.mem_of_getElem? hworker)
          simp only [Crew.next, stores, hworker]
          exact hfollows.writes h.layout h.shows hword now index
  | abort => simp [Crew.next, stores, writesAt]

/-- The tally knows all stores that the words of the records have had. -/
theorem InStep.writes_run (steps : List Step) :
    (crew.tally tally steps).writes config.count index word =
      tally.writes config.count index word ++
        writesAt (crew.history steps) (Layout.bodyAt ⟨config.stages⟩ index + word * 8) := by
  induction steps generalizing crew tally with
  | nil => simp [Crew.tally, history, writesAt]
  | cons step rest ih =>
      rw [Crew.tally, history, writesAt_append, ← List.append_assoc,
        ← h.writes_step hword index step]
      exact ih (h.step step)

end InStep

end Crew

end GatedPipeline
