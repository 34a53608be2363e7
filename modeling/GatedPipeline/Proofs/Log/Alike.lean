import GatedPipeline.Proofs.Log.Course

/-!
Two courses of a log that cannot be told apart by their cursors. Their logs differ at most in words
of bodies, and a cursor of the one may have passed a filler that the same cursor of the other still
stands in front of. A read finds headers and fillers only, so every step finds the same in both and
takes them to two such courses again.

Where the logs and the views are the same to begin with, they stay so, and then all answers are the
same with the words of the records they carry.
-/

namespace GatedPipeline.Log

/-- What an answer shows besides the words of a record. -/
def Answer.shown : Answer → Answer
  | .record index _ => .record index []
  | answer => answer

def Act.views : Act → Bool
  | .edit .. | .look _ => true
  | _ => false

def Call.views : Call → Bool
  | .use act => act.views
  | .take | .release => false

/-- Two logs that are the same but for words that are no headers. Cursors go the same way in both.
-/
structure Alike (log other : Log) : Prop where
  rest : other = { log with words := other.words }
  header : ∀ index, other.word (log.layout.headerAt index) = log.word (log.layout.headerAt index)

namespace Alike

variable {log other : Log}

theorem refl (log : Log) : log.Alike log := ⟨rfl, fun _ => rfl⟩

theorem layout (h : log.Alike other) : other.layout = log.layout := by rw [h.rest]

theorem capacity (h : log.Alike other) : other.capacity = log.capacity := by rw [h.rest]

theorem taken (h : log.Alike other) : other.appenderTaken = log.appenderTaken := by rw [h.rest]

theorem take (h : log.Alike other) (taken : Bool) :
    { log with appenderTaken := taken }.Alike { other with appenderTaken := taken } := by
  refine ⟨?_, h.header⟩
  rw [h.rest]

theorem symm (h : log.Alike other) : other.Alike log := by
  refine ⟨?_, fun index => ?_⟩
  · rw [h.rest]
  · rw [h.layout]
    exact (h.header index).symm

theorem trans {third : Log} (h : log.Alike other) (hthird : other.Alike third) :
    log.Alike third := by
  refine ⟨?_, fun index => ?_⟩
  · have hrest := hthird.rest
    rw [h.rest] at hrest
    exact hrest
  · have hheader := hthird.header index
    rw [h.layout] at hheader
    exact hheader.trans (h.header index)

/-- How an append goes is decided without a look at the words. -/
theorem plan (h : log.Alike other) (appender : Appender) (fill : List Edit) :
    other.plan appender fill = log.plan appender fill := by
  rw [h.rest]
  rfl

theorem slot (h : log.Alike other) (appender : Appender) :
    other.slot appender = log.slot appender := by
  rw [h.rest]
  rfl

theorem store (h : log.Alike other) (store : Store) :
    (log.store store).Alike (other.store store) := by
  refine ⟨?_, fun index => ?_⟩
  · rw [h.rest]
    cases store <;> rfl
  · rw [layout_store]
    cases store with
    | word position value =>
        simp only [Log.store, word_setWord]
        rw [h.header index]
    | writePosition position => exact h.header index
    | appended records => exact h.header index

theorem storeAll (h : log.Alike other) (stores : List Store) :
    (log.storeAll stores).Alike (other.storeAll stores) := by
  induction stores generalizing log other with
  | nil => exact h
  | cons store rest ih => exact ih (h.store store)

/-- Words of bodies may differ. -/
theorem setBody (log : Log) {index word : Nat} (hword : word < log.layout.words) (value : Word) :
    log.Alike (log.setWord (log.layout.bodyAt index + word * 8) value) := by
  refine ⟨rfl, fun other => ?_⟩
  have hother := word_setPlace log (.body index word) (.header other) hword trivial value
  rwa [if_neg (by simp)] at hother

/-- A fill stores words of one body. -/
theorem fill (log : Log) (index : Nat) {stores : List Store}
    (hbody : ∀ store ∈ stores, ∃ word value, word < log.layout.words ∧
      store = .word (log.layout.bodyAt index + word * 8) value) :
    log.Alike (log.storeAll stores) := by
  induction stores generalizing log with
  | nil => exact .refl log
  | cons store rest ih =>
      obtain ⟨word, value, hword, rfl⟩ := hbody store List.mem_cons_self
      refine (setBody log hword value).trans (ih _ fun other hother => ?_)
      exact hbody other (List.mem_cons_of_mem _ hother)

/-- The pages to touch are found without a look at the words. -/
theorem pretouch (h : log.Alike other) {reached : Nat} {pages : List Nat}
    (hpretouch : log.pretouch = .ok ({ log with pretouched := reached }, pages)) :
    other.pretouch = .ok ({ other with pretouched := reached }, pages) := by
  have hwords : ∀ words, { log with words := words }.pretouch =
      log.pretouch.map fun result => ({ result.1 with words := words }, result.2) := by
    intro words
    have haccess : { log with words := words }.access = log.access := rfl
    unfold Log.pretouch
    rw [haccess]
    dsimp only
    rcases Checked.add log.writePosition pretouchAhead with fault | stop
    · rfl
    · simp only [ok_bind]
      generalize (List.forM _ _ : Except Fault PUnit) = touched
      rcases touched with fault | ⟨⟩
      · rfl
      · simp only [ok_bind]
        generalize Checked.add _ _ = sum
        rcases sum with fault | reached <;> rfl
  rw [h.rest, hwords, hpretouch]
  rfl

theorem committed_eq (h : log.Alike other) : other.committed = log.committed := by
  simp only [committed, Log.room, h.layout, h.capacity, h.header]

end Alike

/-- Both cursors stand in front of the same record. -/
def Level (layout : Layout) (tailer other : Tailer) : Prop :=
  ∃ index, tailer.Stands layout index ∧ other.Stands layout index

/-! ### In use -/

namespace Usage

/-- Two usages whose logs differ in no header and whose cursors stand in front of the same records.
They are `exact` if their logs and their views are the same. -/
structure Alike (layout : Layout) (exact : Prop) (one other : Usage) : Prop where
  log : one.log.Alike other.log
  appender : other.appender = one.appender
  tailers : List.Forall₂ (Level layout) one.tailers other.tailers
  exactly : exact → other.log = one.log ∧ other.views = one.views

/-- One act done to both. Views are numbered apart if the usages are not exact. -/
structure Matches (layout : Layout) (exact : Prop) (act : Act) (one other : Usage × Answer) :
    Prop where
  alike : Alike layout exact one.1 other.1
  shown : act.views = false → other.2.shown = one.2.shown
  answer : exact → other.2 = one.2

variable {layout : Layout} {capacity fillers fillers' records : Nat} {exact : Prop}
  {one other : Usage}

/-- Every cursor is level with itself. -/
theorem Amid.level {usage : Usage} (h : usage.Amid layout capacity fillers records) :
    List.Forall₂ (Level layout) usage.tailers usage.tailers :=
  List.forall₂_same.mpr fun tailer htailer =>
    let ⟨index, _, hstands⟩ := h.tailers tailer htailer
    ⟨index, hstands, hstands⟩

/-- The headers that stand are the same, so there are as many. -/
theorem Alike.records_eq {records' : Nat} (h : Alike layout exact one other)
    (hone : one.Amid layout capacity fillers records)
    (hother : other.Amid layout capacity fillers' records') : records' = records := by
  have hcommitted := h.log.committed_eq
  rwa [committed_eq hone.sound hone.framed (Nat.le_trans hone.order hone.fits),
    committed_eq hother.sound hother.framed (Nat.le_trans hother.order hother.fits)] at hcommitted

section Alike

variable (h : Alike layout exact one other)

include h

theorem Alike.lent (act : Act) : other.lent act = one.lent act := by
  cases act with
  | appendWith fill => simp only [Usage.lent, h.appender, h.log.slot, h.log.layout]
  | _ => rfl

/-- An append goes the same way in both, and it answers the same. -/
theorem Alike.appendWith_log (fill : List Edit) :
    (one.log.appendWith one.appender fill).1.Alike
        (other.log.appendWith other.appender fill).1 ∧
      (other.log.appendWith other.appender fill).2 = (one.log.appendWith one.appender fill).2 ∧
      (exact → (other.log.appendWith other.appender fill).1 =
        (one.log.appendWith one.appender fill).1) := by
  have hplan := h.log.plan one.appender fill
  unfold Log.appendWith
  rw [h.appender, hplan]
  rcases one.log.plan one.appender fill with ⟨stores, problem | after⟩
  · exact ⟨h.log.storeAll stores, rfl, fun hexact => by rw [(h.exactly hexact).1]⟩
  · exact ⟨h.log.storeAll stores, rfl, fun hexact => by rw [(h.exactly hexact).1]⟩

theorem Alike.append (given : List Word) :
    Alike layout exact (one.append given).1 (other.append given).1 ∧
      (other.append given).2 = (one.append given).2 := by
  have happend := h.appendWith_log (editsOf given)
  unfold Usage.append Log.append
  rw [h.log.layout]
  split_ifs with hwide
  · exact ⟨⟨h.log, h.appender, h.tailers, h.exactly⟩, rfl⟩
  · revert happend
    generalize other.log.appendWith other.appender (editsOf given) = ending
    rcases one.log.appendWith one.appender (editsOf given) with ⟨log, appender, problem | index⟩
    all_goals
      obtain ⟨log', appender', result⟩ := ending
      rintro ⟨hlog, hsame, hexactly⟩
      cases hsame
      exact ⟨⟨hlog, rfl, h.tailers, fun hexact => ⟨hexactly hexact, (h.exactly hexact).2⟩⟩, rfl⟩

theorem Alike.appendWith (fill : List Edit) :
    Alike layout exact (one.appendWith fill).1 (other.appendWith fill).1 ∧
      (other.appendWith fill).2 = (one.appendWith fill).2 := by
  have happend := h.appendWith_log fill
  have hslot := h.log.slot one.appender
  unfold Usage.appendWith
  rw [← h.appender] at hslot
  rw [hslot, h.log.layout, h.appender]
  rw [h.appender] at happend
  revert happend
  generalize other.log.appendWith one.appender fill = ending
  rcases one.log.appendWith one.appender fill with ⟨log, appender, problem | index⟩
  · obtain ⟨log', appender', result⟩ := ending
    rintro ⟨hlog, hsame, hexactly⟩
    cases hsame
    exact ⟨⟨hlog, rfl, h.tailers, fun hexact => ⟨hexactly hexact, (h.exactly hexact).2⟩⟩, rfl⟩
  · obtain ⟨log', appender', result⟩ := ending
    rintro ⟨hlog, hsame, hexactly⟩
    cases hsame
    refine ⟨⟨hlog, rfl, h.tailers, fun hexact => ⟨hexactly hexact, ?_⟩⟩, rfl⟩
    simp only [(h.exactly hexact).2]

end Alike

section Amid

variable (h : Alike layout exact one other) (hone : one.Amid layout capacity fillers records)

include h

theorem Alike.setTailer (cursor : Nat) {tailer tailer' : Tailer} {index : Nat}
    (hstands : tailer.Stands layout index) (hstands' : tailer'.Stands layout index) :
    Alike layout exact { one with tailers := one.tailers.set cursor tailer }
      { other with tailers := other.tailers.set cursor tailer' } :=
  { h with tailers := forall₂_set h.tailers cursor ⟨index, hstands, hstands'⟩ }

include hone

theorem Alike.pretouch : Matches layout exact .pretouch one.pretouch other.pretouch := by
  obtain ⟨reached, pages, hpretouch, -⟩ := pretouch_sound hone.sound
  rw [Usage.pretouch, Usage.pretouch, hpretouch, h.log.pretouch hpretouch]
  refine ⟨⟨⟨?_, h.log.header⟩, h.appender, h.tailers, fun hexact => ?_⟩, fun _ => rfl, fun _ => rfl⟩
  · simp only [Usage.pretouched]
    rw [h.log.rest]
  · simp only [Usage.pretouched, (h.exactly hexact).1, (h.exactly hexact).2, and_self]

/-- The same cursor in both, and the record that it stands in front of. -/
theorem Alike.cursor (cursor : Nat) :
    (one.tailers[cursor]? = none ∧ other.tailers[cursor]? = none) ∨
      ∃ tailer tailer' index, one.tailers[cursor]? = some tailer ∧
        other.tailers[cursor]? = some tailer' ∧ index ≤ records ∧
        tailer.Stands layout index ∧ tailer'.Stands layout index := by
  rcases forall₂_lookup h.tailers cursor with
    hnone | ⟨tailer, tailer', hheld, hheld', index, hstands, hstands'⟩
  · exact .inl hnone
  · obtain ⟨found, hfound, hat⟩ := hone.tailers tailer (List.mem_of_getElem? hheld)
    obtain rfl : found = index := hat.next.symm.trans hstands.next
    exact .inr ⟨tailer, tailer', found, hheld, hheld', hfound, hstands, hstands'⟩

variable (hother : other.Amid layout capacity fillers' records)

include hother

theorem Alike.next (cursor : Nat) :
    Matches layout exact (.next cursor) (one.next cursor) (other.next cursor) := by
  rcases h.cursor hone cursor with
    ⟨hheld, hheld'⟩ | ⟨tailer, tailer', index, hheld, hheld', hindex, hstands, hstands'⟩
  · simp only [Usage.next, hheld, hheld']
    exact ⟨h, fun _ => rfl, fun _ => rfl⟩
  · obtain ⟨after, hafter, hnext⟩ := hone.next_eq hheld hindex hstands
    obtain ⟨after', hafter', hnext'⟩ := hother.next_eq hheld' hindex hstands'
    rw [hnext, hnext']
    split_ifs at hafter hafter' ⊢ with hmore
    · refine ⟨{ h.setTailer cursor hafter hafter' with exactly := fun hexact => ?_ },
        fun _ => rfl, fun hexact => ?_⟩
      · exact ⟨(h.exactly hexact).1, by rw [(h.exactly hexact).2]⟩
      · rw [(h.exactly hexact).1]
    · exact ⟨h.setTailer cursor hafter hafter', fun _ => rfl, fun _ => rfl⟩

theorem Alike.seek (cursor target : Nat) :
    Matches layout exact (.seek cursor target) (one.seek cursor target)
      (other.seek cursor target) := by
  rcases h.cursor hone cursor with
    ⟨hheld, hheld'⟩ | ⟨tailer, tailer', index, hheld, hheld', hindex, hstands, hstands'⟩
  · simp only [Usage.seek, hheld, hheld']
    exact ⟨h, fun _ => rfl, fun _ => rfl⟩
  · obtain ⟨after, hafter, hseek⟩ := hone.seek_eq hheld hindex hstands target
    obtain ⟨after', hafter', hseek'⟩ := hother.seek_eq hheld' hindex hstands' target
    rw [hseek, hseek']
    exact ⟨h.setTailer cursor hafter hafter', fun _ => rfl, fun _ => rfl⟩

end Amid

/-- An edit changes a word of a body at most. -/
theorem Amid.edit_alike {usage : Usage} (h : usage.Amid layout capacity fillers records)
    (view : Nat) (change : Edit) : ∃ log answer, usage.edit view change =
      ({ usage with log := log }, answer) ∧ usage.log.Alike log := by
  obtain ⟨answer, hedit, -⟩ | ⟨index, word, value, hword, -, -, hedit⟩ :=
    h.edit_cases view change
  · exact ⟨usage.log, answer, hedit, .refl usage.log⟩
  · obtain rfl := h.layout_eq
    exact ⟨_, .done, hedit, .setBody usage.log hword value⟩

/-- Through the same view the same log is changed in the same way. -/
theorem edit_same (hlog : other.log = one.log) (hviews : other.views = one.views) (view : Nat)
    (change : Edit) : (other.edit view change).1.log = (one.edit view change).1.log ∧
      (other.edit view change).2 = (one.edit view change).2 := by
  unfold Usage.edit
  rw [hlog, hviews]
  rcases one.views[view]? with _ | held
  · exact ⟨hlog, rfl⟩
  · dsimp only
    rcases one.log.edit held change with ⟨log, fault | ⟨⟩⟩ <;> exact ⟨rfl, rfl⟩

section Amid

variable (h : Alike layout exact one other) (hone : one.Amid layout capacity fillers records)
  (hother : other.Amid layout capacity fillers' records)

include h hone hother

theorem Alike.edit (view : Nat) (change : Edit) :
    Matches layout exact (.edit view change) (one.edit view change) (other.edit view change) := by
  have hsame := fun hexact =>
    edit_same (h.exactly hexact).1 (h.exactly hexact).2 view change
  obtain ⟨log, answer, hedit, hlog⟩ := hone.edit_alike view change
  obtain ⟨log', answer', hedit', hlog'⟩ := hother.edit_alike view change
  rw [hedit, hedit'] at hsame ⊢
  refine ⟨⟨(hlog.symm.trans h.log).trans hlog', h.appender, h.tailers, fun hexact => ?_⟩,
    fun hviews => ?_, fun hexact => (hsame hexact).2⟩
  · exact ⟨(hsame hexact).1, (h.exactly hexact).2⟩
  · cases hviews

theorem Alike.act (act : Act) :
    Matches layout exact act (one.act act) (other.act act) := by
  cases act with
  | append given =>
      obtain ⟨halike, hanswer⟩ := h.append given
      exact ⟨halike, fun _ => congrArg Answer.shown hanswer, fun _ => hanswer⟩
  | appendWith fill =>
      obtain ⟨halike, hanswer⟩ := h.appendWith fill
      exact ⟨halike, fun _ => congrArg Answer.shown hanswer, fun _ => hanswer⟩
  | tail =>
      refine ⟨{ h with tailers := ?_ }, fun _ => rfl, fun _ => rfl⟩
      have hstart := Tailer.start_stands layout
      exact List.rel_append h.tailers (.cons ⟨0, hstart, hstart⟩ .nil)
  | next cursor => exact h.next hone hother cursor
  | seek cursor index => exact h.seek hone hother cursor index
  | edit view change => exact h.edit hone hother view change
  | look view =>
      refine ⟨h, fun hviews => ?_, fun hexact => ?_⟩
      · cases hviews
      · simp only [Usage.act, Usage.look, (h.exactly hexact).1, (h.exactly hexact).2]
  | count =>
      have hcount : other.log.appended = one.log.appended := by rw [h.log.rest]
      have hanswer : (other.act .count).2 = (one.act .count).2 := congrArg Answer.count hcount
      exact ⟨h, fun _ => congrArg Answer.shown hanswer, fun _ => hanswer⟩
  | pretouch => exact h.pretouch hone

end Amid

end Usage

namespace Sessions

structure Alike (layout : Layout) (exact : Prop) (one other : Sessions) : Prop where
  usage : one.usage.Alike layout exact other.usage
  counts : other.counts = one.counts

variable {layout : Layout} {capacity fillers fillers' records : Nat} {exact : Prop}
  {one other : Sessions} (h : Alike layout exact one other)

include h

theorem Alike.append {act : Act} (happends : act.appends) :
    Alike layout exact (one.use act) (other.use act) ∧
      (other.usage.act act).2 = (one.usage.act act).2 := by
  have happend : Usage.Alike layout exact (one.usage.act act).1 (other.usage.act act).1 ∧
      (other.usage.act act).2 = (one.usage.act act).2 := by
    cases act with
    | append given => exact h.usage.append given
    | appendWith fill => exact h.usage.appendWith fill
    | _ => cases happends
  have hlent := h.usage.lent act
  unfold Sessions.use
  revert happend
  generalize other.usage.act act = result
  rcases one.usage.act act with ⟨after, answer⟩
  obtain ⟨after', answer'⟩ := result
  rintro ⟨hafter, hanswer⟩
  cases hanswer
  cases answer with
  | appended index => exact ⟨⟨hafter, by rw [h.counts]⟩, rfl⟩
  | broken fault =>
      refine ⟨⟨{ hafter with exactly := fun hexact => ?_ }, h.counts⟩, rfl⟩
      obtain ⟨hlog, hviews⟩ := hafter.exactly hexact
      dsimp only at hviews ⊢
      exact ⟨hlog, by rw [hviews, hlent]⟩
  | _ => exact ⟨⟨hafter, h.counts⟩, rfl⟩

variable (hone : one.usage.Amid layout capacity fillers records)
  (hother : other.usage.Amid layout capacity fillers' records)

include hone hother

/-- One call made in both. -/
theorem Alike.call (call : Call) : Alike layout exact (one.call call) (other.call call) ∧
    (call.views = false → (other.answer call).shown = (one.answer call).shown) ∧
    (exact → other.answer call = one.answer call) := by
  have htaken := h.usage.log.taken
  cases call with
  | take =>
      simp only [Sessions.call, Sessions.answer, takeAppender, htaken]
      split_ifs
      · exact ⟨h, fun _ => rfl, fun _ => rfl⟩
      · refine ⟨⟨⟨h.usage.log.take true, rfl, h.usage.tailers, fun hexact => ?_⟩,
          congrArg (0 :: ·) h.counts⟩, fun _ => rfl, fun _ => rfl⟩
        obtain ⟨hlog, hviews⟩ := h.usage.exactly hexact
        exact ⟨by rw [hlog], hviews⟩
  | release =>
      refine ⟨⟨⟨h.usage.log.take false, h.usage.appender, h.usage.tailers, fun hexact => ?_⟩,
        h.counts⟩, fun _ => rfl, fun _ => rfl⟩
      obtain ⟨hlog, hviews⟩ := h.usage.exactly hexact
      exact ⟨congrArg releaseAppender hlog, hviews⟩
  | use act =>
      cases happends : act.appends with
      | true =>
          simp only [Sessions.call, Sessions.answer, htaken]
          split_ifs
          · exact ⟨h, fun _ => rfl, fun _ => rfl⟩
          · obtain ⟨halike, hanswer⟩ := h.append happends
            exact ⟨halike, fun _ => congrArg Answer.shown hanswer, fun _ => hanswer⟩
      | false =>
          obtain ⟨-, -, -, hnone⟩ := hone.act happends
          obtain ⟨-, -, -, hnone'⟩ := hother.act happends
          obtain ⟨halike, hshown, hanswer⟩ := h.usage.act hone hother act
          rw [call_reads happends hnone, call_reads happends hnone']
          simp only [Sessions.answer, happends, Bool.false_eq_true, false_and, if_false]
          exact ⟨⟨halike, h.counts⟩, hshown, hanswer⟩

end Sessions

namespace Course

structure Alike (layout : Layout) (exact : Prop) (one other : Course) : Prop where
  sessions : one.toSessions.Alike layout exact other.toSessions
  underway : other.underway = one.underway

/-- What a step shows, if it is not made through a view. -/
def seen (course : Course) : Step → Answer
  | .call call => if call.views then .done else (course.answer (.call call)).shown
  | .plan _ | .store => .done

def shows (course : Course) : List Step → List Answer
  | [] => []
  | first :: rest => course.seen first :: (course.step first).shows rest

section Kept

variable {layout : Layout} {capacity fillers fillers' records records' : Nat} {exact : Prop}
  {one other : Course} (h : Alike layout exact one other)

include h

theorem Alike.plan (fill : List Edit) : Alike layout exact (one.plan fill) (other.plan fill) := by
  have happender := h.sessions.usage.appender
  have hlent := h.sessions.usage.lent (.appendWith fill)
  have hplan := h.sessions.usage.log.plan one.usage.appender fill
  refine ⟨⟨{ h.sessions.usage with exactly := fun hexact => ?_ }, h.sessions.counts⟩, ?_⟩
  · obtain ⟨hlog, hviews⟩ := h.sessions.usage.exactly hexact
    exact ⟨hlog, by simp only [Course.plan, hviews, hlent]⟩
  · simp only [Course.plan, happender, hplan]

theorem Alike.store : Alike layout exact one.store other.store := by
  have husage := h.sessions.usage
  simp only [Course.store, h.underway]
  rcases one.underway with _ | ⟨_ | ⟨store, rest⟩, problem | appender⟩
  · exact h
  · exact ⟨h.sessions, rfl⟩
  · exact ⟨⟨⟨husage.log, rfl, husage.tailers, husage.exactly⟩,
      congrArg (List.modifyHead (· + 1)) h.sessions.counts⟩, rfl⟩
  all_goals
    refine ⟨⟨⟨husage.log.store store, husage.appender, husage.tailers, fun hexact => ?_⟩,
      h.sessions.counts⟩, rfl⟩
    obtain ⟨hlog, hviews⟩ := husage.exactly hexact
    exact ⟨congrArg (Log.store · store) hlog, hviews⟩

variable (hone : one.Kept layout capacity fillers records)
  (hother : other.Kept layout capacity fillers' records')

include hone hother

theorem Alike.step (step : Step) : Alike layout exact (one.step step) (other.step step) ∧
    other.seen step = one.seen step ∧ (exact → other.answer step = one.answer step) := by
  obtain rfl := h.sessions.usage.records_eq hone.usage hother.usage
  cases step with
  | call call =>
      obtain ⟨hsessions, hshown, hanswer⟩ := h.sessions.call hone.usage hother.usage call
      have hbars : other.bars call = one.bars call := by simp only [bars, h.underway]
      simp only [Course.step, seen, Course.answer, hbars]
      split_ifs with hbarred hviews hviews
      · exact ⟨h, rfl, fun _ => rfl⟩
      · exact ⟨h, rfl, fun _ => rfl⟩
      · exact ⟨⟨hsessions, h.underway⟩, rfl, hanswer⟩
      · exact ⟨⟨hsessions, h.underway⟩, hshown (by simpa using hviews), hanswer⟩
  | plan fill =>
      refine ⟨?_, rfl, fun _ => rfl⟩
      simp only [Course.step, h.underway, h.sessions.usage.log.taken]
      split_ifs
      · exact h.plan fill
      · exact h
  | store => exact ⟨h.store, rfl, fun _ => rfl⟩

/-- Whatever comes, both show the same; exact ones answer the same. -/
theorem Alike.run (steps : List Step) : other.shows steps = one.shows steps ∧
    (exact → other.answers steps = one.answers steps) := by
  induction steps generalizing one other fillers fillers' records records' with
  | nil => exact ⟨rfl, fun _ => rfl⟩
  | cons first rest ih =>
      obtain ⟨hfirst, hseen, hanswer⟩ := h.step hone hother first
      obtain ⟨_, _, hone⟩ := hone.step first
      obtain ⟨_, _, hother⟩ := hother.step first
      obtain ⟨hshows, hanswers⟩ := ih hfirst hone hother
      simp only [shows, answers, hseen, hshows, true_and]
      intro hexact
      rw [hanswer hexact, hanswers hexact]

end Kept

end Course

end GatedPipeline.Log
