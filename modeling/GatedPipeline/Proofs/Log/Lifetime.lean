import GatedPipeline.Proofs.Log.Framing

/-!
What a log keeps over its life. Behind the last committed record a log only grows: the count goes
up, it is the number of records a fresh cursor finds, and an append changes no record in front of
it. An appender that is taken over committed records starts at the front again. Its appends set the
count back to those of its own session and write over the records of the sessions before it, while
a fresh cursor still finds the records of the longest session.
-/

namespace GatedPipeline

namespace Log

/-! ### The stores of one append -/

/-- Stores at other places leave a place as it is. -/
theorem word_storeAll_apart {log : Log} {stores : List Store} {other : Layout.Place}
    (hother : other.Real log.layout)
    (happart : ∀ position value, .word position value ∈ stores → ∃ place : Layout.Place,
      place.Real log.layout ∧ place ≠ other ∧ place.position log.layout = position) :
    (log.storeAll stores).word (other.position log.layout) =
      log.word (other.position log.layout) := by
  have haligned := other.position_aligned log.layout
  refine word_storeAll_elsewhere fun position value hstore hsame => ?_
  obtain ⟨place, hreal, hne, rfl⟩ := happart position value hstore
  have haligned' := place.position_aligned log.layout
  exact hne (Layout.Place.position_injective log.layout place other hreal hother (by omega))

theorem appended_storeAll {log : Log} {stores : List Store}
    (h : ∀ records, .appended records ∉ stores) :
    (log.storeAll stores).appended = log.appended := by
  induction stores generalizing log with
  | nil => rfl
  | cons store rest ih =>
      have hrest : ∀ log : Log, (log.storeAll rest).appended = log.appended := fun log =>
        ih fun records hmember => h records (List.mem_cons_of_mem store hmember)
      cases store with
      | appended records => exact absurd List.mem_cons_self (h records)
      | word position value => exact hrest (log.store (.word position value))
      | writePosition position => exact hrest (log.store (.writePosition position))

theorem appended_commit (log : Log) (layout : Layout) (count : Nat) :
    (log.storeAll (layout.commitStores count)).appended = count + 1 := by
  unfold Layout.commitStores
  rw [storeAll_append]
  rfl

theorem appendWith_log (log : Log) (appender : Appender) (fill : List Edit) :
    (log.appendWith appender fill).1 = log.storeAll (log.plan appender fill).stores := by
  unfold Log.appendWith
  rcases log.plan appender fill with ⟨stores, problem | after⟩ <;> rfl

section Kept

variable {log : Log} {layout : Layout} {capacity most count : Nat}
  (h : log.Kept layout capacity most) (hcount : count ≤ most)

include h hcount

/-- An append stores at places of its own record. -/
theorem Kept.plan_places (fill : List Edit) (position : Nat) (value : Word)
    (hstore : .word position value ∈ (log.plan (layout.appenderAt count) fill).stores) :
    ∃ place : Layout.Place, place.Real layout ∧ place.record = count ∧
      place.position layout = position := by
  obtain rfl := h.layout_eq
  have hbody := fillStores_body (log.layout.bodyAt count) log.layout.words fill
  have hfilled : ∀ stores : List Store,
      (∀ store ∈ stores, ∃ word value, word < log.layout.words ∧
        store = .word (log.layout.bodyAt count + word * 8) value) →
      .word position value ∈ stores → ∃ place : Layout.Place, place.Real log.layout ∧
        place.record = count ∧ place.position log.layout = position := by
    intro stores hstores hmember
    obtain ⟨word, other, hword, heq⟩ := hstores _ hmember
    cases heq
    exact ⟨.body count word, hword, rfl, rfl⟩
  rw [plan_eq h.sound (Nat.le_trans hcount h.fits) fill] at hstore
  split_ifs at hstore
  · rcases hsplit : fillStores (log.layout.bodyAt count) log.layout.words fill with
      ⟨stores, fault | ⟨⟩⟩
    · rw [hsplit] at hstore hbody
      exact hfilled stores hbody hstore
    · rw [hsplit] at hstore hbody
      rcases List.mem_append.mp hstore with hmember | hmember
      · exact hfilled stores hbody hmember
      · obtain heq | ⟨heq, hreal⟩ | heq | heq := Layout.mem_commitStores hmember <;> cases heq
        · exact ⟨.header count, trivial, rfl, rfl⟩
        · exact ⟨.filler count, hreal, rfl, rfl⟩
  · cases hstore

/-- The records of other numbers keep their words. -/
theorem Kept.appendWith_word (fill : List Edit) {index word : Nat} (hword : word < layout.words)
    (hother : index ≠ count) :
    (log.appendWith (layout.appenderAt count) fill).1.word (layout.bodyAt index + word * 8) =
      log.word (layout.bodyAt index + word * 8) := by
  have hplaces := h.plan_places hcount fill
  obtain rfl := h.layout_eq
  rw [appendWith_log]
  have hreal : (Layout.Place.body index word).Real log.layout := hword
  refine word_storeAll_apart hreal fun position value hstore => ?_
  obtain ⟨place, hreal, hrecord, hposition⟩ := hplaces position value hstore
  refine ⟨place, hreal, ?_, hposition⟩
  rintro rfl
  exact hother hrecord

/-- The count is set by an append that commits its record, and by no other. -/
theorem Kept.appendWith_appended (fill : List Edit) :
    (log.appendWith (layout.appenderAt count) fill).1.appended =
      match (log.appendWith (layout.appenderAt count) fill).2.2 with
      | .ok _ => count + 1
      | .error _ => log.appended := by
  obtain rfl := h.layout_eq
  have hbody := fillStores_body (log.layout.bodyAt count) log.layout.words fill
  have hplan := plan_eq h.sound (Nat.le_trans hcount h.fits) fill
  unfold Log.appendWith
  rw [hplan]
  split_ifs
  · rcases hsplit : fillStores (log.layout.bodyAt count) log.layout.words fill with
      ⟨stores, fault | ⟨⟩⟩
    · rw [hsplit] at hbody
      apply appended_storeAll
      intro records hmember
      obtain ⟨word, value, -, heq⟩ := hbody _ hmember
      cases heq
    · simp only [storeAll_append]
      exact appended_commit _ _ _
  · rfl

end Kept

/-! ### One act -/

namespace Usage

/-- What an act does to the log: it appends for the appender, it writes the word that an edit names,
or it stores nothing. -/
inductive Leaves (layout : Layout) (usage : Usage) : Act → Log × Answer → Prop
  | appends (act : Act) (fill : List Edit) (answer : Answer) (happends : act.appends)
      (hanswer : (∃ index, answer = .appended index) ↔
        ∃ index, (usage.log.appendWith usage.appender fill).2.2 = .ok index) :
      Leaves layout usage act ((usage.log.appendWith usage.appender fill).1, answer)
  | edits (view index word : Nat) (change : Edit) (value : Word)
      (hview : usage.views[view]? = some (layout.viewAt index))
      (htarget : change.target layout.words = .ok (word, value)) :
      Leaves layout usage (.edit view change)
        (usage.log.setWord (layout.bodyAt index + word * 8) value, .done)
  | rests (act : Act) (reached : Nat) (answer : Answer)
      (hanswer : ¬ ∃ index, answer = .appended index) :
      Leaves layout usage act ({ usage.log with pretouched := reached }, answer)

section Kept

variable {usage : Usage} {layout : Layout} {capacity most : Nat}
  (h : usage.Kept layout capacity most)

theorem leaves_append (usage : Usage) (given : List Word) : usage.Leaves layout (.append given)
    ((usage.append given).1.log, (usage.append given).2) := by
  unfold Usage.append Log.append
  split_ifs
  · exact .rests _ usage.log.pretouched _ (by simp [Answer.ofProblem, Problem.of])
  · have happends : ∀ answer, _ → _ → usage.Leaves layout (.append given) (_, answer) :=
      Leaves.appends (.append given) (editsOf given)
    revert happends
    rcases usage.log.appendWith usage.appender (editsOf given) with
      ⟨log, appender, problem | index⟩
    · intro happends
      apply happends _ rfl
      cases problem <;> simp [Answer.ofProblem]
    · intro happends
      exact happends _ rfl (by simp)

theorem leaves_appendWith (usage : Usage) (fill : List Edit) :
    usage.Leaves layout (.appendWith fill)
      ((usage.appendWith fill).1.log, (usage.appendWith fill).2) := by
  have happends : ∀ answer, _ → _ → usage.Leaves layout (.appendWith fill) (_, answer) :=
    Leaves.appends (.appendWith fill) fill
  unfold Usage.appendWith
  revert happends
  rcases usage.log.appendWith usage.appender fill with ⟨log, appender, problem | index⟩
  · intro happends
    apply happends _ rfl
    cases problem <;> simp [Answer.ofProblem]
  · intro happends
    exact happends _ rfl (by simp)

theorem log_next (usage : Usage) (cursor : Nat) : (usage.next cursor).1.log = usage.log := by
  unfold Usage.next
  split
  · rfl
  · split <;> rfl

theorem log_seek (usage : Usage) (cursor index : Nat) :
    (usage.seek cursor index).1.log = usage.log := by
  unfold Usage.seek
  split
  · rfl
  · split <;> rfl

include h

theorem Kept.leaves_pretouch :
    usage.Leaves layout .pretouch (usage.pretouch.1.log, usage.pretouch.2) := by
  obtain ⟨reached, pages, hpretouch, -⟩ := pretouch_sound h.log.sound
  unfold Usage.pretouch
  rw [hpretouch]
  exact .rests _ reached _ (by simp [Usage.pretouched])

theorem Kept.leaves (act : Act) (happender : act.appends →
      ∃ count ≤ most, usage.appender = layout.appenderAt count) :
    usage.Leaves layout act ((usage.act act).1.log, (usage.act act).2) := by
  have hdoes := h.act act happender
  have hrests : act.appends = false → (usage.act act).1.log = usage.log →
      usage.Leaves layout act ((usage.act act).1.log, (usage.act act).2) := by
    intro hno hlog
    rw [hlog]
    refine .rests act usage.log.pretouched _ ?_
    rintro ⟨index, hindex⟩
    generalize usage.act act = result at hdoes hindex
    cases hdoes with
    | committed after count happends hbefore hafter hkept =>
        rw [hno] at happends
        cases happends
    | stayed after answer happender htaken hkept hanswer hfault => exact hanswer index hindex
  cases act with
  | append given => exact usage.leaves_append given
  | appendWith fill => exact usage.leaves_appendWith fill
  | tail => exact hrests rfl rfl
  | next cursor => exact hrests rfl (usage.log_next cursor)
  | seek cursor index => exact hrests rfl (usage.log_seek cursor index)
  | look view => exact hrests rfl rfl
  | count => exact hrests rfl rfl
  | edit view change =>
      change usage.Leaves layout (.edit view change)
        ((usage.edit view change).1.log, (usage.edit view change).2)
      unfold Usage.edit
      cases hview : usage.views[view]? with
      | none => exact .rests _ usage.log.pretouched _ (by simp)
      | some held =>
          obtain ⟨index, -, rfl⟩ := h.views held (List.mem_of_getElem? hview)
          cases htarget : change.target layout.words with
          | error fault =>
              have hlog : usage.log.edit (layout.viewAt index) change =
                  (usage.log, .error fault) := by
                simp only [Log.edit, Layout.viewAt, htarget]
              simp only [hlog]
              exact .rests _ usage.log.pretouched _ (by simp)
          | ok target =>
              have hlog : usage.log.edit (layout.viewAt index) change =
                  (usage.log.setWord (layout.bodyAt index + target.1 * 8) target.2, .ok ()) := by
                simp only [Log.edit, Layout.viewAt, htarget]
              simp only [hlog]
              exact .edits view index target.1 change target.2 hview htarget
  | pretouch =>
      have hact : usage.act .pretouch = usage.pretouch := rfl
      rw [hact]
      exact h.leaves_pretouch

end Kept

end Usage

/-! ### Whole histories -/

namespace Sessions

/-- The records of the latest session that has committed any. -/
def latest (sessions : Sessions) : Nat := (sessions.counts.find? (0 < ·)).getD 0

/-- The call appends, if it does, behind the last committed record. -/
def Behind (sessions : Sessions) : Call → Prop
  | .use act => act.appends → sessions.usage.log.appenderTaken →
      sessions.counts.head? = some sessions.most
  | .take | .release => True

instance (sessions : Sessions) (call : Call) : Decidable (sessions.Behind call) :=
  match call with
  | .use act => inferInstanceAs (Decidable (act.appends → sessions.usage.log.appenderTaken →
      sessions.counts.head? = some sessions.most))
  | .take | .release => .isTrue trivial

/-- No appender that was taken over committed records appends. -/
def Onward (sessions : Sessions) : List Call → Prop
  | [] => True
  | call :: rest => sessions.Behind call ∧ (sessions.call call).Onward rest

instance decidableOnward (sessions : Sessions) (calls : List Call) :
    Decidable (sessions.Onward calls) :=
  match calls with
  | [] => .isTrue trivial
  | call :: rest =>
      have := decidableOnward (sessions.call call) rest
      inferInstanceAs (Decidable (sessions.Behind call ∧ (sessions.call call).Onward rest))

theorem latest_cons (count : Nat) (rest : List Nat) (usage : Usage) :
    latest ⟨usage, count :: rest⟩ = if 0 < count then count else latest ⟨usage, rest⟩ := by
  unfold latest
  rw [List.find?_cons]
  by_cases hcount : 0 < count
  · simp only [hcount, decide_true, if_true, Option.getD_some]
  · simp only [hcount, decide_false, if_false]

/-- What a call does to the counts: it starts a session, it commits the next record of the session
that is on, or it leaves them alone. -/
inductive Counts (sessions : Sessions) : Call → List Nat → Prop
  | starts (call : Call) : Counts sessions call (0 :: sessions.counts)
  | commits (act : Act) (count : Nat) (rest : List Nat) (happends : act.appends)
      (htaken : sessions.usage.log.appenderTaken) (hcounts : sessions.counts = count :: rest) :
      Counts sessions (.use act) ((count + 1) :: rest)
  | rests (call : Call) : Counts sessions call sessions.counts

section Kept

variable {sessions : Sessions} {layout : Layout} {capacity : Nat}
  (h : sessions.Kept layout capacity)

include h

theorem Kept.counts_use {act : Act} (hout : act.appends → sessions.usage.log.appenderTaken) :
    sessions.Counts (.use act) (sessions.use act).counts := by
  have hdoes := h.does hout
  by_cases happended : ∃ index, (sessions.usage.act act).2 = .appended index
  · rw [use_appended happended]
    generalize sessions.usage.act act = result at hdoes happended
    cases hdoes with
    | committed after count happends hbefore hafter hkept =>
        obtain ⟨current, rest, hcounts, -⟩ := h.appender (hout happends)
        rw [hcounts, List.modifyHead_cons]
        exact .commits act current rest happends (hout happends) hcounts
    | stayed after answer happender htaken hkept hanswer hfault =>
        obtain ⟨index, hindex⟩ := happended
        exact absurd hindex (hanswer index)
  · rw [use_other happended]
    exact .rests _

theorem Kept.counts_call (call : Call) : sessions.Counts call (sessions.call call).counts := by
  cases call with
  | take =>
      simp only [Sessions.call]
      split
      · exact .starts _
      · exact .rests _
  | release => exact .rests _
  | use act =>
      simp only [Sessions.call]
      split_ifs with habsent
      · exact .rests _
      · apply h.counts_use
        simpa using habsent

/-- What one call leaves of a word in a record: it is an append to that very record, an edit of that
very word, or the word stays. -/
theorem Kept.word_call {call : Call} {index word : Nat} (hword : word < layout.words)
    (hchanged : (sessions.call call).usage.log.word (layout.bodyAt index + word * 8) ≠
      sessions.usage.log.word (layout.bodyAt index + word * 8)) :
    (∃ act, call = .use act ∧ act.appends ∧ sessions.usage.log.appenderTaken ∧
        sessions.counts.head? = some index) ∨
      ∃ view change value, call = .use (.edit view change) ∧
        sessions.usage.views[view]? = some (layout.viewAt index) ∧
        change.target layout.words = .ok (word, value) := by
  cases call with
  | take =>
      simp only [Sessions.call, takeAppender] at hchanged
      split_ifs at hchanged <;> exact absurd rfl hchanged
  | release => exact absurd rfl hchanged
  | use act =>
      simp only [Sessions.call] at hchanged
      split_ifs at hchanged with habsent
      · exact absurd rfl hchanged
      · have hout : act.appends → sessions.usage.log.appenderTaken := by simpa using habsent
        have hleaves := h.usage.leaves act fun happends => h.holder (hout happends)
        rw [use_log] at hchanged
        generalize (sessions.usage.act act).1.log = log at hleaves hchanged
        generalize (sessions.usage.act act).2 = answer at hleaves
        cases hleaves with
        | appends act fill answer happends hanswer =>
            obtain ⟨count, rest, hcounts, hcount, happender⟩ := h.current (hout happends)
            refine .inl ⟨act, rfl, happends, hout happends, ?_⟩
            by_contra hother
            rw [hcounts, List.head?_cons, Option.some.injEq] at hother
            rw [happender] at hchanged
            exact hchanged (h.usage.log.appendWith_word hcount fill hword (Ne.symm hother))
        | edits view other otherWord change value hview htarget =>
            obtain rfl := h.usage.log.layout_eq
            rw [word_setBody _ (Edit.target_lt htarget) hword] at hchanged
            split_ifs at hchanged with hsame
            · obtain ⟨rfl, rfl⟩ := hsame
              exact .inr ⟨view, change, value, rfl, hview, htarget⟩
            · exact absurd rfl hchanged
        | rests act reached answer hanswer => exact absurd rfl hchanged

end Kept

/-- The count that readers see is that of the latest session with a record. -/
structure Counted (sessions : Sessions) (layout : Layout) (capacity : Nat) : Prop where
  kept : sessions.Kept layout capacity
  appended : sessions.usage.log.appended = sessions.latest

section Counted

variable {sessions : Sessions} {layout : Layout} {capacity : Nat}
  (h : sessions.Counted layout capacity)

include h

theorem Counted.use {act : Act} (hout : act.appends → sessions.usage.log.appenderTaken) :
    (sessions.use act).Counted layout capacity := by
  refine ⟨h.kept.use hout, ?_⟩
  have hleaves := h.kept.usage.leaves act fun happends => h.kept.holder (hout happends)
  have happended := @use_appended sessions act
  have hother := @use_other sessions act
  have hbefore := h.appended
  rw [use_log]
  unfold latest at hbefore ⊢
  generalize (sessions.usage.act act).1.log = log at hleaves
  generalize (sessions.usage.act act).2 = answer at hleaves happended hother
  cases hleaves with
  | appends act fill answer happends hanswer =>
      obtain ⟨count, rest, hcounts, hcount, happender⟩ := h.kept.current (hout happends)
      have hset := h.kept.usage.log.appendWith_appended hcount fill
      rw [← happender] at hset
      rw [hset]
      cases hresult : (sessions.usage.log.appendWith sessions.usage.appender fill).2.2 with
      | ok index =>
          rw [happended (hanswer.mpr ⟨index, hresult⟩), hcounts]
          rfl
      | error problem =>
          have hnone : ¬ ∃ index, answer = .appended index := by
            rw [hanswer, hresult]
            simp
          rw [hother hnone]
          exact hbefore
  | edits view index word change value hview htarget =>
      rw [hother (by simp)]
      exact hbefore
  | rests act reached answer hanswer =>
      rw [hother hanswer]
      exact hbefore

theorem Counted.call (call : Call) : (sessions.call call).Counted layout capacity := by
  have hkept := h.kept.call call
  cases call with
  | take =>
      refine ⟨hkept, ?_⟩
      simp only [Sessions.call, takeAppender]
      split_ifs
      · exact h.appended
      · rw [latest_cons, if_neg (Nat.lt_irrefl 0)]
        exact h.appended
  | release => exact ⟨hkept, h.appended⟩
  | use act =>
      simp only [Sessions.call]
      split_ifs with habsent
      · exact h
      · apply h.use
        simpa using habsent

theorem Counted.run (calls : List Call) : (sessions.run calls).Counted layout capacity := by
  unfold Sessions.run
  induction calls generalizing sessions with
  | nil => exact h
  | cons first rest ih => exact ih (h.call first)

/-- The count goes down only where a session commits a record over those of an earlier one. -/
theorem Counted.falls {call : Call}
    (hfalls : (sessions.call call).usage.log.appended < sessions.usage.log.appended) :
    ∃ act count, call = .use act ∧ act.appends ∧ sessions.counts.head? = some count ∧
      count + 1 < sessions.latest := by
  have hcounts := h.kept.counts_call call
  rw [(h.call call).appended, h.appended] at hfalls
  unfold latest at hfalls ⊢
  generalize (sessions.call call).counts = counts at hcounts hfalls
  cases hcounts with
  | starts call => exact absurd hfalls (Nat.lt_irrefl _)
  | commits act count rest happends htaken hcounts =>
      refine ⟨act, count, rfl, happends, ?_, hfalls⟩
      rw [hcounts, List.head?_cons]
  | rests call => exact absurd hfalls (Nat.lt_irrefl _)

end Counted

section Behind

variable {sessions : Sessions} {layout : Layout} {capacity : Nat}
  (h : sessions.Kept layout capacity)

include h

theorem Kept.most_call (call : Call) : sessions.most ≤ (sessions.call call).most := by
  have hcounts := h.counts_call call
  unfold most
  generalize (sessions.call call).counts = counts at hcounts
  cases hcounts with
  | starts call => exact Nat.le_max_right _ _
  | commits act count rest happends htaken hcounts =>
      rw [hcounts, List.foldr_cons, List.foldr_cons]
      omega
  | rests call => exact Nat.le_refl _

/-- As long as appends go behind the last record, the latest session is the longest. -/
theorem Kept.latest_call {call : Call} (hlatest : sessions.latest = sessions.most)
    (hbehind : sessions.Behind call) :
    (sessions.call call).latest = (sessions.call call).most := by
  have hcounts := h.counts_call call
  unfold latest most at hlatest ⊢
  generalize (sessions.call call).counts = counts at hcounts
  cases hcounts with
  | starts call => exact hlatest.trans (Nat.zero_max _).symm
  | commits act count rest happends htaken hcounts =>
      have hhead := hbehind happends htaken
      rw [hcounts, List.head?_cons, Option.some.injEq] at hhead
      have hmost : rest.foldr max 0 ≤ count := by
        rw [hhead, most, hcounts, List.foldr_cons]
        exact Nat.le_max_right _ _
      rw [List.foldr_cons, Nat.max_eq_left (by omega)]
      rfl
  | rests call => exact hlatest

theorem Kept.latest_run {calls : List Call} (hlatest : sessions.latest = sessions.most)
    (honward : sessions.Onward calls) :
    (sessions.run calls).latest = (sessions.run calls).most := by
  unfold Sessions.run
  induction calls generalizing sessions with
  | nil => exact hlatest
  | cons first rest ih =>
      exact ih (h.call first) (h.latest_call hlatest honward.1) honward.2

end Behind

theorem Onward.append {sessions : Sessions} {first second : List Call}
    (h : sessions.Onward (first ++ second)) :
    sessions.Onward first ∧ (sessions.run first).Onward second := by
  unfold Sessions.run
  induction first generalizing sessions with
  | nil => exact ⟨trivial, h⟩
  | cons call rest ih =>
      obtain ⟨hrest, hsecond⟩ := ih h.2
      exact ⟨⟨h.1, hrest⟩, hsecond⟩

end Sessions

/-- What a log keeps, whatever its history. The count is that of the latest session that has
committed a record, while a fresh cursor finds the records of the longest session. An append writes
the next record of its own session, an edit the word it names, and nothing else writes a record. By
`falls` the count goes down only where a session commits a record over those of an earlier one. -/
structure Lifetime (sessions : Sessions) (layout : Layout) : Prop where
  appended : sessions.usage.log.appended = sessions.latest
  drained : ∀ fuel, sessions.most < fuel →
    (Tailer.drain sessions.usage.log fuel .start).2.1.length = sessions.most
  words : ∀ call index word, word < layout.words →
    (sessions.call call).usage.log.word (layout.bodyAt index + word * 8) ≠
      sessions.usage.log.word (layout.bodyAt index + word * 8) →
    (∃ act, call = .use act ∧ act.appends ∧ sessions.usage.log.appenderTaken ∧
        sessions.counts.head? = some index) ∨
      ∃ view change value, call = .use (.edit view change) ∧
        sessions.usage.views[view]? = some (layout.viewAt index) ∧
        change.target layout.words = .ok (word, value)
  falls : ∀ call, (sessions.call call).usage.log.appended < sessions.usage.log.appended →
    ∃ act count, call = .use act ∧ act.appends ∧ sessions.counts.head? = some count ∧
      count + 1 < sessions.latest

/-- What makes a log append-only: a call leaves the count or raises it, the count is what a fresh
cursor finds, and an append changes no word of a record that has been committed. -/
structure AppendOnly (sessions : Sessions) (layout : Layout) (call : Call) : Prop where
  grows : sessions.usage.log.appended ≤ (sessions.call call).usage.log.appended
  drained : ∀ fuel, sessions.usage.log.appended < fuel →
    (Tailer.drain sessions.usage.log fuel .start).2.1.length = sessions.usage.log.appended
  keeps : (∃ act, call = .use act ∧ act.appends) → ∀ index < sessions.usage.log.appended,
    ∀ word < layout.words, (sessions.call call).usage.log.word (layout.bodyAt index + word * 8) =
      sessions.usage.log.word (layout.bodyAt index + word * 8)

/-- Over every history of a log, the count is that of the latest session and cursors find the
longest one. A log that is only ever appended to behind its last record is append-only. -/
theorem Sessions.run_lifetime {storage after : Storage} {directory name : String}
    {stages bytes : Nat} {layout : Layout} {log : Log}
    (hlayout : Layout.ofStages stages = .ok layout)
    (hcreate : Log.create storage directory name layout bytes = (after, .ok log))
    (calls : List Call) :
    Lifetime ((Sessions.begin log).run calls) layout ∧
      ∀ call, (Sessions.begin log).Onward (calls ++ [call]) →
        AppendOnly ((Sessions.begin log).run calls) layout call := by
  have hbegin := Sessions.begin_kept hlayout hcreate
  have hfresh : log.appended = 0 := (create_holds (Layout.ofStages_ok hlayout).1 hcreate).1.appended
  have hcounted : ((Sessions.begin log).run calls).Counted layout log.capacity :=
    Sessions.Counted.run ⟨hbegin, hfresh⟩ calls
  have hdrained : ∀ fuel, ((Sessions.begin log).run calls).most < fuel →
      (Tailer.drain ((Sessions.begin log).run calls).usage.log fuel .start).2.1.length =
        ((Sessions.begin log).run calls).most := by
    intro fuel hfuel
    have hframing := hcounted.kept.usage.log.framing hcounted.kept.usage.tailers
    obtain ⟨final, hdrain⟩ := hframing.drained fuel hfuel
    rw [hdrain, List.length_map, List.length_range]
  refine ⟨⟨hcounted.appended, hdrained, fun call index word hword hchanged =>
    hcounted.kept.word_call hword hchanged, fun call hfalls => hcounted.falls hfalls⟩, ?_⟩
  intro call honward
  obtain ⟨hcalls, hbehind, -⟩ := honward.append
  have hlatest := hbegin.latest_run rfl hcalls
  have happended := hcounted.appended.trans hlatest
  constructor
  case grows =>
    rw [happended, (hcounted.call call).appended, hcounted.kept.latest_call hlatest hbehind]
    exact hcounted.kept.most_call call
  case drained =>
    rw [happended]
    exact hdrained
  case keeps =>
    rintro ⟨act, rfl, happends⟩ index hindex word hword
    by_contra hchanged
    rcases hcounted.kept.word_call hword hchanged with
      ⟨other, hsame, -, htaken, hhead⟩ | ⟨view, change, value, hsame, -, -⟩
    · have hend := hbehind happends htaken
      rw [hhead, Option.some.injEq] at hend
      omega
    · cases hsame
      cases happends

/-- A record, a broken fill, a stamp and a second record, all in one session. -/
theorem Sessions.run_lifetime_one_session :
    let sessions := (Sessions.begin ⟨"main", "/main.log", 4096, ⟨1⟩, .zeros, 0, 0, 0, false⟩).run
      [.take, .use (.append [1, 100]), .use (.appendWith [.stamp 0 7, .stamp 2 7]), .use .tail,
        .use (.next 0), .use (.edit 0 (.stamp 1 8))]
    sessions.counts = [1] ∧ Lifetime sessions ⟨1⟩ ∧
      AppendOnly sessions ⟨1⟩ (.use (.append [0, 200])) := by
  intro sessions
  obtain ⟨hlifetime, honly⟩ := @Sessions.run_lifetime .empty _ "/" "main" 1 100 ⟨1⟩
    ⟨"main", "/main.log", 4096, ⟨1⟩, .zeros, 0, 0, 0, false⟩ rfl (Prod.ext rfl rfl)
    [.take, .use (.append [1, 100]), .use (.appendWith [.stamp 0 7, .stamp 2 7]), .use .tail,
      .use (.next 0), .use (.edit 0 (.stamp 1 8))]
  exact ⟨by decide, hlifetime, honly _ (by decide)⟩

/-- Two records of one session and the first record of the next: the count falls from two to one
while a fresh cursor finds two records, and the first record is no longer the one committed. -/
theorem append_only_fails_second_session :
    let sessions := (Sessions.begin ⟨"main", "/main.log", 4096, ⟨1⟩, .zeros, 0, 0, 0, false⟩).run
      [.take, .use (.append [1, 100]), .use (.append [0, 200]), .release, .take]
    let after := sessions.call (.use (.append [7, 777]))
    ¬ sessions.usage.log.appended ≤ after.usage.log.appended ∧
      (Tailer.drain after.usage.log 4096 .start).2.1.length ≠ after.usage.log.appended ∧
      (sessions.usage.log.word 64, sessions.usage.log.word 72) = (1, 100) ∧
      (after.usage.log.word 64, after.usage.log.word 72) = (7, 777) := by
  decide

end Log

end GatedPipeline
