import GatedPipeline.Proofs.Log.Course
import GatedPipeline.Proofs.Log.Lifetime

/-!
What one step does to the log: it makes stores of an append, it writes one word of a body, it
pretouches, or it hands the appender out or takes it back. Stores made in one step are of one
record. They leave the headers of all others as they are, and where they move the write position
they move it to the end of the record, whose header stands by then.
-/

namespace GatedPipeline.Log

/-! ### The stores of an append -/

/-- An append of record `count` makes the store: one to the body, or one that commits the record. -/
def Store.Of (layout : Layout) (count : Nat) (store : Store) : Prop :=
  (∃ word value, word < layout.words ∧ store = .word (layout.bodyAt count + word * 8) value) ∨
    store ∈ layout.commitStores count

def Store.header (layout : Layout) (index : Nat) : Store :=
  .word (layout.headerAt index) (Header.recordWord layout.bytes)

/-- Stores that are made in one step, with the headers of so many records in the log before it: they
are of one record, and where the write position moves its header stands or comes with them. -/
def Store.Together (layout : Layout) (records : Nat) (stores : List Store) : Prop :=
  ∃ count ≤ records, (∀ store ∈ stores, store.Of layout count) ∧
    ∀ position, .writePosition position ∈ stores → count < records ∨ .header layout count ∈ stores

theorem Store.together_nil (layout : Layout) (records : Nat) : Together layout records [] :=
  ⟨0, Nat.zero_le _, by simp, by simp⟩

section Headers

variable {log : Log} {count : Nat}

theorem header_setPlace (log : Log) {place : Layout.Place} (hreal : place.Real log.layout)
    (hplace : ∀ index, place ≠ .header index) (value : Word) (index : Nat) :
    (log.setWord (place.position log.layout) value).word (log.layout.headerAt index) =
      log.word (log.layout.headerAt index) ∧
        place.position log.layout ≠ log.layout.headerAt index := by
  have hother : (Layout.Place.header index).Real log.layout := trivial
  refine ⟨?_, fun hsame => ?_⟩
  · have hword := word_setPlace log place (.header index) hreal hother value
    rwa [if_neg (Ne.symm (hplace index))] at hword
  · exact hplace index (Layout.Place.position_injective log.layout _ _ hreal hother hsame)

/-- A store of an append leaves the header of a record as it is, unless it commits the record. -/
theorem header_store {store : Store} (h : store.Of log.layout count) (index : Nat) :
    (log.store store).word (log.layout.headerAt index) =
      if store = .header log.layout index then Header.recordWord log.layout.bytes
      else log.word (log.layout.headerAt index) := by
  have hapart : ∀ place : Layout.Place, place.Real log.layout → (∀ other, place ≠ .header other) →
      ∀ value, (log.store (.word (place.position log.layout) value)).word
        (log.layout.headerAt index) = if Store.word (place.position log.layout) value =
          .header log.layout index then Header.recordWord log.layout.bytes
        else log.word (log.layout.headerAt index) := by
    intro place hreal hplace value
    obtain ⟨hsame, hne⟩ := header_setPlace log hreal hplace value index
    rw [if_neg (by simp [Store.header, hne])]
    exact hsame
  rcases h with ⟨word, value, hword, rfl⟩ | hcommit
  · exact hapart (.body count word) hword (by simp) value
  · obtain rfl | ⟨rfl, hreal⟩ | rfl | rfl := Layout.mem_commitStores hcommit
    · have hword := word_setPlace log (.header count) (.header index) trivial trivial
        (Header.recordWord log.layout.bytes)
      refine hword.trans ?_
      by_cases hat : index = count
      · subst hat
        simp [Store.header]
      · have hne : log.layout.headerAt count ≠ log.layout.headerAt index := fun hsame =>
          hat (Layout.Place.header.inj (Layout.Place.position_injective log.layout _ _ trivial
            trivial hsame)).symm
        rw [if_neg (by simp [hat]), if_neg (by simp [Store.header, hne])]
        rfl
    · exact hapart (.filler count) hreal (by simp) _
    · exact (if_neg (by simp [Store.header])).symm
    · exact (if_neg (by simp [Store.header])).symm

/-- What a single store sets and no other touches is set by a list of stores with that one in it. -/
theorem storeAll_sets {α : Type} (get : Log → α) {target : Store} {value : α} {stores : List Store}
    (hsets : ∀ other : Log, other.layout = log.layout → ∀ store ∈ stores,
      get (other.store store) = if store = target then value else get other) :
    get (log.storeAll stores) = if target ∈ stores then value else get log := by
  induction stores generalizing log with
  | nil => rfl
  | cons first rest ih =>
      have hfirst := hsets log rfl first List.mem_cons_self
      have hrest := @ih (log.store first) fun other hlayout store hstore =>
        hsets other (hlayout.trans (layout_store log first)) store
          (List.mem_cons_of_mem first hstore)
      refine hrest.trans ?_
      rw [hfirst]
      simp only [List.mem_cons, eq_comm (a := target)]
      split_ifs <;> simp_all

theorem header_storeAll {stores : List Store} (h : ∀ store ∈ stores, store.Of log.layout count)
    (index : Nat) : (log.storeAll stores).word (log.layout.headerAt index) =
      if .header log.layout index ∈ stores then Header.recordWord log.layout.bytes
      else log.word (log.layout.headerAt index) := by
  refine storeAll_sets (fun other => other.word (log.layout.headerAt index)) ?_
  intro other hlayout store hstore
  rw [← hlayout] at h ⊢
  exact header_store (h store hstore) index

/-- Stores of an append move the write position to the end of the record, if they move it. -/
theorem position_storeAll {stores : List Store} (h : ∀ store ∈ stores, store.Of log.layout count) :
    (log.storeAll stores).writePosition =
      if .writePosition (log.layout.endAfter (count + 1)) ∈ stores then
        log.layout.endAfter (count + 1)
      else log.writePosition := by
  refine storeAll_sets Log.writePosition ?_
  intro other hlayout store hstore
  rcases h store hstore with ⟨word, value, -, rfl⟩ | hcommit
  · rfl
  · obtain rfl | ⟨rfl, -⟩ | rfl | rfl := Layout.mem_commitStores hcommit
    · rfl
    · rfl
    · exact (if_pos rfl).symm
    · rfl

end Headers

theorem pretouched_storeAll (log : Log) (stores : List Store) :
    (log.storeAll stores).pretouched = log.pretouched := by
  induction stores generalizing log with
  | nil => rfl
  | cons first rest ih =>
      refine (ih (log.store first)).trans ?_
      cases first <;> rfl

/-- The stores of an append are of its record, and the one that moves the write position comes with
the one that commits. -/
theorem plan_of {log : Log} {count : Nat} (hsound : log.Sound) (hroom : count ≤ log.room)
    (fill : List Edit) :
    (∀ store ∈ (log.plan (log.layout.appenderAt count) fill).stores,
      store.Of log.layout count) ∧
    ∀ position, .writePosition position ∈ (log.plan (log.layout.appenderAt count) fill).stores →
      .header log.layout count ∈ (log.plan (log.layout.appenderAt count) fill).stores := by
  have hbody := fillStores_body (log.layout.bodyAt count) log.layout.words fill
  have hmoves : ∀ position, .writePosition position ∉
      (fillStores (log.layout.bodyAt count) log.layout.words fill).1 := by
    intro position hstore
    obtain ⟨word, value, -, heq⟩ := hbody _ hstore
    cases heq
  rw [plan_eq hsound hroom]
  split_ifs
  · revert hbody hmoves
    rcases fillStores (log.layout.bodyAt count) log.layout.words fill with ⟨stores, fault | ⟨⟩⟩
    · intro hbody hmoves
      exact ⟨fun store hstore => .inl (hbody store hstore),
        fun position hstore => absurd hstore (hmoves position)⟩
    · intro hbody hmoves
      refine ⟨fun store hstore => ?_, fun _ _ => ?_⟩
      · exact (List.mem_append.mp hstore).imp (hbody store) id
      · simp [Store.header, Layout.commitStores]
  · exact ⟨fun store hstore => absurd hstore List.not_mem_nil, fun _ hstore =>
      absurd hstore List.not_mem_nil⟩

/-- The next store of an append under way. The write position moves when the header stands. -/
theorem Phase.first_of {layout : Layout} {count : Nat} {phase : Phase} {first : Store}
    {rest : List Store} (hrest : phase.rest layout count = first :: rest) :
    first.Of layout count ∧ ∀ position, first = .writePosition position → phase = .committed := by
  cases phase with
  | filling todo =>
      have hbody := fillStores_body (layout.bodyAt count) layout.words todo
      rcases hfill : (fillStores (layout.bodyAt count) layout.words todo).1 with _ | ⟨store, stores⟩
      · have hcommit : layout.commitStores count = first :: rest := by
          rwa [Phase.rest, hfill] at hrest
        refine ⟨.inr (hcommit ▸ List.mem_cons_self), fun position hmoves => ?_⟩
        rw [Layout.commitStores, paddingStores] at hcommit
        split_ifs at hcommit <;> (subst hmoves; cases hcommit)
      · rw [Phase.rest, hfill] at hrest
        obtain ⟨word, value, hword, hstore⟩ := hbody store (hfill ▸ List.mem_cons_self)
        obtain ⟨rfl, -⟩ := List.cons.inj hrest
        exact ⟨.inl ⟨word, value, hword, hstore⟩, fun position hmoves => by
          rw [hstore] at hmoves
          cases hmoves⟩
  | padded =>
      obtain ⟨rfl, -⟩ := List.cons.inj hrest
      exact ⟨.inr (by simp [Layout.commitStores]), by simp⟩
  | committed =>
      obtain ⟨rfl, -⟩ := List.cons.inj hrest
      exact ⟨.inr (by simp [Layout.commitStores]), fun _ _ => rfl⟩
  | placed =>
      obtain ⟨rfl, -⟩ := List.cons.inj hrest
      exact ⟨.inr (by simp [Layout.commitStores]), by simp⟩
  | counted => cases hrest

/-- The stores that an act makes for the appender. -/
def Usage.stores (usage : Usage) : Act → List Store
  | .append given =>
      if usage.log.layout.words < given.length then []
      else (usage.log.plan usage.appender (editsOf given)).stores
  | .appendWith fill => (usage.log.plan usage.appender fill).stores
  | .tail | .next _ | .seek .. | .edit .. | .look _ | .count | .pretouch => []

namespace Course

abbrev Step.pretouch : Step := .call (.use .pretouch)

/-- The stores that a step makes for an append. -/
def stores (course : Course) : Step → List Store
  | .call (.use act) =>
      if course.bars (.use act) ∨ act.appends ∧ ¬ course.usage.log.appenderTaken then []
      else course.usage.stores act
  | .store =>
      match course.underway with
      | some ⟨first :: _, _⟩ => [first]
      | some ⟨[], _⟩ | none => []
  | .call .take | .call .release | .plan _ => []

def stored (course : Course) : List Step → List Store
  | [] => []
  | first :: rest => course.stores first ++ (course.step first).stored rest

def touches (course : Course) : Step → Option (List Nat)
  | .call (.use .pretouch) => course.usage.log.pretouch.toOption.map Prod.snd
  | _ => none

def pretouches (course : Course) : List Step → List (List Nat)
  | [] => []
  | first :: rest => (course.touches first).toList ++ (course.step first).pretouches rest

/-- What a step does to the log: it makes its stores, it writes a word of a body, it pretouches, or
it hands the appender out or takes it back. -/
inductive Leaves (course : Course) (layout : Layout) : Step → Log → Prop
  | stores (step : Step) (htouches : course.touches step = none) :
      Leaves course layout step (course.usage.log.storeAll (course.stores step))
  | edits (step : Step) (index word : Nat) (value : Word) (hword : word < layout.words)
      (hstores : course.stores step = []) (htouches : course.touches step = none) :
      Leaves course layout step
        (course.usage.log.setWord (layout.bodyAt index + word * 8) value)
  | hands (step : Step) (taken : Bool) (hstores : course.stores step = [])
      (htouches : course.touches step = none) :
      Leaves course layout step { course.usage.log with appenderTaken := taken }
  | pretouches : Leaves course layout .pretouch course.usage.log.afterPretouch

end Course

theorem Usage.append_stores (usage : Usage) (given : List Word) :
    (usage.append given).1.log = usage.log.storeAll (usage.stores (.append given)) := by
  rw [Usage.log_append, Log.append]
  simp only [Usage.stores]
  split_ifs
  · rfl
  · exact appendWith_log usage.log usage.appender (editsOf given)

theorem Usage.appendWith_stores (usage : Usage) (fill : List Edit) :
    (usage.appendWith fill).1.log = usage.log.storeAll (usage.stores (.appendWith fill)) :=
  (usage.log_appendWith fill).trans (appendWith_log usage.log usage.appender fill)

namespace Course

section Kept

variable {course : Course} {layout : Layout} {capacity fillers records : Nat}
  (h : course.Kept layout capacity fillers records)

theorem leaves_same {step : Step} (hstores : course.stores step = [])
    (htouches : course.touches step = none)
    (hlog : (course.step step).usage.log = course.usage.log) :
    course.Leaves layout step (course.step step).usage.log := by
  have hleaves := @Leaves.stores course layout step htouches
  rwa [hstores, show course.usage.log.storeAll [] = course.usage.log from rfl, ← hlog] at hleaves

include h

/-- What an act that can be made does to the log. -/
theorem Kept.leaves_act {act : Act} (hbars : course.bars (.use act) = false)
    (hout : act.appends → course.usage.log.appenderTaken) :
    course.Leaves layout (.call (.use act)) (course.usage.act act).1.log := by
  have hstores : course.stores (.call (.use act)) = course.usage.stores act :=
    if_neg (by simpa [hbars] using hout)
  have hmakes : course.touches (.call (.use act)) = none →
      (course.usage.act act).1.log = course.usage.log.storeAll (course.usage.stores act) →
      course.Leaves layout (.call (.use act)) (course.usage.act act).1.log := by
    intro htouches hlog
    rw [hlog, ← hstores]
    exact .stores _ htouches
  cases act with
  | append given => exact hmakes rfl (course.usage.append_stores given)
  | appendWith fill => exact hmakes rfl (course.usage.appendWith_stores fill)
  | tail => exact hmakes rfl rfl
  | next cursor => exact hmakes rfl (course.usage.log_next cursor)
  | seek cursor index => exact hmakes rfl (course.usage.log_seek cursor index)
  | look view => exact hmakes rfl rfl
  | count => exact hmakes rfl rfl
  | edit view change =>
      obtain ⟨answer, hedit, -⟩ | ⟨index, word, value, hword, -, -, hedit⟩ :=
        h.usage.edit_cases view change
      · exact hmakes rfl (congrArg (·.1.log) hedit)
      · rw [show (course.usage.act (.edit view change)).1.log = _ from congrArg (·.1.log) hedit]
        exact .edits _ index word value hword hstores rfl
  | pretouch =>
      have hlog : ∀ after pages, (course.usage.pretouched (.ok (after, pages))).1.log = after :=
        fun _ _ => rfl
      rw [Usage.act, Usage.pretouch, pretouch_eq h.usage.sound, hlog]
      exact .pretouches

theorem Kept.leaves (step : Step) : course.Leaves layout step (course.step step).usage.log := by
  cases step with
  | plan fill =>
      refine leaves_same rfl rfl ?_
      simp only [Course.step]
      split_ifs <;> rfl
  | store =>
      have hleaves := @Leaves.stores course layout .store rfl
      rcases hunder : course.underway with _ | ⟨_ | ⟨first, rest⟩, _ | _⟩ <;>
        simp only [Course.step, Course.store, Course.stores, hunder] at hleaves ⊢ <;>
        exact hleaves
  | call call =>
      cases hbars : course.bars call with
      | true =>
          have hstep : course.step (.call call) = course := by simp [Course.step, hbars]
          refine leaves_same ?_ ?_ (by rw [hstep])
          · cases call with
            | use act => exact if_pos (.inl hbars)
            | take | release => rfl
          · cases call with
            | use act =>
                cases act with
                | pretouch => simp [bars, Call.ofAppender, Act.appends] at hbars
                | _ => rfl
            | take | release => rfl
      | false =>
          have hstep : (course.step (.call call)).usage.log =
              (course.toSessions.call call).usage.log := by simp [Course.step, hbars]
          cases call with
          | take =>
              simp only [Sessions.call, takeAppender] at hstep
              split_ifs at hstep
              · exact leaves_same rfl rfl hstep
              · rw [hstep]
                exact .hands _ true rfl rfl
          | release =>
              rw [hstep]
              exact .hands _ false rfl rfl
          | use act =>
              by_cases habsent : act.appends ∧ ¬ course.usage.log.appenderTaken
              · refine leaves_same (if_pos (.inr habsent)) ?_ ?_
                · cases act with
                  | pretouch => simp [Act.appends] at habsent
                  | _ => rfl
                · rw [hstep, Sessions.call, if_pos habsent]
              · rw [hstep, Sessions.call, if_neg habsent, Sessions.use_log]
                exact h.leaves_act hbars (by simpa using habsent)

/-- What the next store of an append under way is. -/
theorem Kept.next_together : Store.Together layout records (course.stores .store) := by
  rcases hunder : course.underway with _ | ⟨_ | ⟨first, rest⟩, outcome⟩
  · simp only [Course.stores, hunder]
    exact Store.together_nil layout records
  · simp only [Course.stores, hunder]
    exact Store.together_nil layout records
  · obtain ⟨count, others, hcounts, happender⟩ := h.appender (h.held (by simp [hunder]))
    have hcount : count ≤ course.most := Sessions.le_most hcounts
    have hunderway := h.underway
    rw [hunder, show course.usage.appender.next = count from congrArg Appender.next happender]
      at hunderway
    have hstores : course.stores .store = [first] := by simp only [Course.stores, hunder]
    rw [hstores]
    simp only [Store.Together, List.mem_singleton, forall_eq]
    generalize hplanned : some (⟨first :: rest, outcome⟩ : Plan) = planned at hunderway
    cases hunderway with
    | resting => cases hplanned
    | appending phase hroom hworks =>
        obtain ⟨hrest, -⟩ := Plan.mk.inj (Option.some.inj hplanned)
        obtain ⟨hof, hmoves⟩ := Phase.first_of hrest.symm
        refine ⟨count, by omega, hof, fun position hposition => .inl ?_⟩
        obtain rfl := hmoves position hposition.symm
        simp only [Phase.records]
        omega
    | breaking stores problem hbody =>
        obtain ⟨rfl, -⟩ := Plan.mk.inj (Option.some.inj hplanned)
        have hfirst := hbody first List.mem_cons_self
        refine ⟨count, hcount, .inl hfirst, fun position hposition => ?_⟩
        obtain ⟨word, value, -, rfl⟩ := hfirst
        cases hposition

/-- What a whole append stores. -/
theorem Kept.plan_together (hrests : course.underway = none)
    (hout : course.usage.log.appenderTaken) (fill : List Edit) : Store.Together layout records
      (course.usage.log.plan course.usage.appender fill).stores := by
  obtain ⟨count, rest, hcounts, hcount, happender⟩ := (h.resting hrests).current hout
  have hunderway := h.underway
  rw [hrests] at hunderway
  obtain ⟨⟩ := hunderway
  obtain rfl := h.usage.layout_eq
  have hof := plan_of h.usage.sound (Nat.le_trans hcount h.usage.fits) fill
  rw [happender]
  exact ⟨count, hcount, hof.1, fun position hmoves => .inr (hof.2 position hmoves)⟩

theorem Kept.act_together {act : Act} (hrests : act.appends → course.underway = none)
    (hout : act.appends → course.usage.log.appenderTaken) :
    Store.Together layout records (course.usage.stores act) := by
  cases act with
  | append given =>
      simp only [Usage.stores]
      split_ifs
      · exact Store.together_nil layout records
      · exact h.plan_together (hrests rfl) (hout rfl) (editsOf given)
  | appendWith fill => exact h.plan_together (hrests rfl) (hout rfl) fill
  | _ => exact Store.together_nil layout records

theorem Kept.stores_together (step : Step) :
    Store.Together layout records (course.stores step) := by
  cases step with
  | plan fill => exact Store.together_nil layout records
  | store => exact h.next_together
  | call call =>
      cases call with
      | take | release => exact Store.together_nil layout records
      | use act =>
          simp only [Course.stores]
          split_ifs with hno
          · exact Store.together_nil layout records
          · rw [not_or] at hno
            refine h.act_together (fun happends => ?_) (by simpa using hno.2)
            have hbars := hno.1
            rwa [bars, Call.ofAppender, happends, Bool.and_true, Option.not_isSome_iff_eq_none]
              at hbars

end Kept

end Course

end GatedPipeline.Log
