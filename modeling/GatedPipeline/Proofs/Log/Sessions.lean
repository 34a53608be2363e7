import GatedPipeline.Proofs.Log.Partway
import GatedPipeline.Proofs.Log.Refinement

/-!
A log over its whole life. Its appender can be given back and taken again, and each new one starts
at the front, over what the ones before it wrote; fills may break and leave words behind; cursors
and views outlive the appender that filled their records. The frame is that of the longest session
all the same: a commit where a record was committed before stores the very words that stand there,
and whatever else is done stores words of bodies only.
-/

namespace GatedPipeline.Log

/-- What is done with a log. `take` takes the appender unless it is out and `release` gives it back.
-/
inductive Call where
  | take
  | release
  | use (act : Act)

/-- The acts that need the appender. -/
def Act.appends : Act → Bool
  | .append _ | .appendWith _ => true
  | .tail | .next _ | .seek .. | .edit .. | .look _ | .count | .pretouch => false

/-- The view that an append lends to its fill. A fill that breaks may have passed it on. -/
def Usage.lent (usage : Usage) : Act → List View
  | .appendWith _ =>
      match usage.log.slot usage.appender with
      | .ok slot => [⟨slot.body, usage.log.layout.words⟩]
      | .error _ => []
  | _ => []

/-- A log over its life so far. The appender is out from when it is taken until it is given back.
The list `counts` has for each appender taken so far, the latest first, the number of records that
it has committed. -/
structure Sessions where
  usage : Usage
  counts : List Nat

namespace Sessions

def begin (log : Log) : Sessions := ⟨⟨log, ⟨0, 0⟩, [], []⟩, []⟩

/-- The most records that a single appender has committed. -/
def most (sessions : Sessions) : Nat := sessions.counts.foldr max 0

def use (sessions : Sessions) (act : Act) : Sessions :=
  match sessions.usage.act act with
  | (usage, .appended _) => ⟨usage, sessions.counts.modifyHead (· + 1)⟩
  | (usage, .broken _) =>
      ⟨{ usage with views := usage.views ++ sessions.usage.lent act }, sessions.counts⟩
  | (usage, _) => ⟨usage, sessions.counts⟩

/-- The log after one call. A call that nobody can make changes nothing. -/
def call (sessions : Sessions) : Call → Sessions
  | .take =>
      match sessions.usage.log.takeAppender with
      | .ok (log, appender) =>
          ⟨{ sessions.usage with log := log, appender := appender }, 0 :: sessions.counts⟩
      | .error _ => sessions
  | .release =>
      ⟨{ sessions.usage with log := sessions.usage.log.releaseAppender }, sessions.counts⟩
  | .use act =>
      if act.appends ∧ ¬ sessions.usage.log.appenderTaken then sessions else sessions.use act

def run (sessions : Sessions) (calls : List Call) : Sessions := calls.foldl call sessions

end Sessions

/-! ### The log -/

/-- A log between two operations. Its layout and size are those it was created with, and its headers
and fillers are those of `most` records, for which it has room. -/
structure Kept (log : Log) (layout : Layout) (capacity most : Nat) : Prop where
  layout_eq : log.layout = layout
  capacity_eq : log.capacity = capacity
  sound : log.Sound
  framed : log.Framed most most
  fits : most ≤ log.room

section Kept

variable {log : Log} {layout : Layout} {capacity most count : Nat}
  (h : log.Kept layout capacity most)

include h

/-- What stores no word changes no frame. -/
theorem Kept.of_words {other : Log} (hwords : other.words = log.words)
    (hlayout : other.layout = log.layout) (hcapacity : other.capacity = log.capacity)
    (hsound : other.Sound) : other.Kept layout capacity most := by
  refine ⟨hlayout.trans h.layout_eq, hcapacity.trans h.capacity_eq, hsound,
    h.framed.of_words hwords hlayout, ?_⟩
  simp only [Log.room, hlayout, hcapacity]
  exact h.fits

theorem Kept.entries : log.entries = (List.range most).map layout.entryAt := by
  rw [Tailer.entries_eq h.sound h.framed h.fits, h.layout_eq]

theorem Kept.setBody {index word : Nat} (hword : word < layout.words) (value : Word) :
    (log.setWord (layout.bodyAt index + word * 8) value).Kept layout capacity most := by
  obtain rfl := h.layout_eq
  exact ⟨rfl, h.capacity_eq, h.sound.setWord _ _, h.framed.setBody hword value, h.fits⟩

/-- A fill stores words of one body, as far as it comes. -/
theorem Kept.fill (index : Nat) (fill : List Edit) :
    (log.storeAll (fillStores (layout.bodyAt index) layout.words fill).1).Kept
      layout capacity most := by
  have hbody := fillStores_body (layout.bodyAt index) layout.words fill
  revert hbody
  generalize (fillStores (layout.bodyAt index) layout.words fill).1 = stores
  intro hbody
  induction stores generalizing log with
  | nil => exact h
  | cons store rest ih =>
      obtain ⟨word, value, hword, rfl⟩ := hbody store List.mem_cons_self
      apply ih (h.setBody hword value)
      exact fun other hother => hbody other (List.mem_cons_of_mem _ hother)

theorem Kept.commit (hcount : count ≤ most) (hfits : count < log.room) :
    (log.storeAll (layout.commitStores count)).Kept layout capacity (max most (count + 1)) := by
  obtain rfl := h.layout_eq
  obtain rfl := h.capacity_eq
  obtain ⟨hsound, hframed⟩ := storeAll_recommit h.sound h.framed hcount hfits
  refine ⟨layout_storeAll _ _, capacity_storeAll _ _, hsound, hframed, ?_⟩
  rw [room_storeAll]
  exact Nat.max_le.mpr ⟨h.fits, hfits⟩

end Kept

/-- How an append of record `count` ends. It breaks only where its fill does. -/
inductive Ends (layout : Layout) (capacity most count : Nat) (fill : List Edit) :
    Log × Appender × Except Problem Nat → Prop
  | committed (after : Log) (hkept : after.Kept layout capacity (max most (count + 1))) :
      Ends layout capacity most count fill (after, layout.appenderAt (count + 1), .ok count)
  | broken (after : Log) (fault : Fault) (hkept : after.Kept layout capacity most)
      (hfault : ∃ edit ∈ fill, edit.target layout.words = .error fault) :
      Ends layout capacity most count fill
        (after, layout.appenderAt count, .error (.broken fault))
  | refused (after : Log) (failure : Failure) (hkept : after.Kept layout capacity most) :
      Ends layout capacity most count fill
        (after, layout.appenderAt count, .error (.failed failure))

theorem fillStores_error {body words : Nat} {fill : List Edit} {fault : Fault}
    (h : (fillStores body words fill).2 = .error fault) :
    ∃ edit ∈ fill, edit.target words = .error fault := by
  induction fill with
  | nil => cases h
  | cons edit rest ih =>
      cases htarget : edit.target words with
      | error other =>
          simp only [fillStores, htarget] at h
          cases h
          exact ⟨edit, List.mem_cons_self, htarget⟩
      | ok target =>
          simp only [fillStores, htarget] at h
          obtain ⟨other, hother, hfault⟩ := ih h
          exact ⟨other, List.mem_cons_of_mem edit hother, hfault⟩

theorem Kept.appendWith {log : Log} {layout : Layout} {capacity most count : Nat}
    (h : log.Kept layout capacity most) (hcount : count ≤ most) (fill : List Edit) :
    Ends layout capacity most count fill (log.appendWith (layout.appenderAt count) fill) := by
  obtain rfl := h.layout_eq
  obtain rfl := h.capacity_eq
  have hplan := plan_eq h.sound (Nat.le_trans hcount h.fits) fill
  have hfilled := h.fill count fill
  unfold Log.appendWith
  rw [hplan]
  split_ifs with hfits
  · rcases hstores : fillStores (log.layout.bodyAt count) log.layout.words fill with
      ⟨stores, fault | ⟨⟩⟩
    · rw [hstores] at hfilled
      exact .broken _ _ hfilled (fillStores_error (congrArg Prod.snd hstores))
    · rw [hstores] at hfilled
      simp only [storeAll_append]
      exact .committed _ (hfilled.commit hcount (by rwa [room_storeAll]))
  · exact .refused _ _ h

@[simp] theorem taken_store (log : Log) (store : Store) :
    (log.store store).appenderTaken = log.appenderTaken := by
  cases store <;> rfl

@[simp] theorem taken_storeAll (log : Log) (stores : List Store) :
    (log.storeAll stores).appenderTaken = log.appenderTaken := by
  induction stores generalizing log with
  | nil => rfl
  | cons store rest ih => exact (ih (log.store store)).trans (taken_store log store)

theorem taken_appendWith (log : Log) (appender : Appender) (fill : List Edit) :
    (log.appendWith appender fill).1.appenderTaken = log.appenderTaken := by
  unfold Log.appendWith
  split <;> exact taken_storeAll _ _

/-! ### The log in use -/

/-- The fault is the caller's own: an edit that no record of so many words can take. -/
def Act.Causes (words : Nat) : Act → Fault → Prop
  | .appendWith fill, fault => ∃ edit ∈ fill, edit.target words = .error fault
  | .edit _ change, fault => change.target words = .error fault
  | _, _ => False

/-- The view is of a record that lies in the log, committed or not. -/
def Placed (layout : Layout) (capacity : Nat) (view : View) : Prop :=
  ∃ index, layout.endAfter (index + 1) ≤ capacity ∧ view = layout.viewAt index

namespace Usage

/-- Every cursor stands in front of a record that has been committed once or comes next. -/
structure Kept (usage : Usage) (layout : Layout) (capacity most : Nat) : Prop where
  log : usage.log.Kept layout capacity most
  tailers : ∀ tailer ∈ usage.tailers, ∃ index ≤ most, tailer.Stands layout index
  views : ∀ view ∈ usage.views, Placed layout capacity view

/-- What one act does: it commits the appender's next record, or it moves neither the appender nor
the frame. -/
inductive Does (layout : Layout) (capacity most : Nat) (usage : Usage) (act : Act) :
    Usage × Answer → Prop
  | committed (after : Usage) (count : Nat) (happends : act.appends)
      (hbefore : usage.appender = layout.appenderAt count)
      (hafter : after.appender = layout.appenderAt (count + 1))
      (hkept : after.Kept layout capacity (max most (count + 1))) :
      Does layout capacity most usage act (after, .appended count)
  | stayed (after : Usage) (answer : Answer) (happender : after.appender = usage.appender)
      (htaken : after.log.appenderTaken = usage.log.appenderTaken)
      (hkept : after.Kept layout capacity most) (hanswer : ∀ index, answer ≠ .appended index)
      (hfault : ∀ fault, answer = .broken fault → act.Causes layout.words fault) :
      Does layout capacity most usage act (after, answer)

/-- Only an append lends anything, the view of its slot. -/
theorem mem_lent {usage : Usage} {act : Act} {view : View} (hview : view ∈ usage.lent act) :
    act.appends ∧ ∃ slot, usage.log.slot usage.appender = .ok slot ∧
      view = ⟨slot.body, usage.log.layout.words⟩ := by
  unfold lent at hview
  split at hview
  · split at hview
    · rename_i slot hslot
      exact ⟨rfl, slot, hslot, List.mem_singleton.mp hview⟩
    · cases hview
  · cases hview

/-- A fill that ends hands out the view of its slot. -/
theorem mem_handed {usage : Usage} {view : View}
    (hview : view ∈ ((usage.log.slot usage.appender).toOption.map fun slot =>
      (⟨slot.body, usage.log.layout.words⟩ : View)).toList) :
    ∃ slot, usage.log.slot usage.appender = .ok slot ∧
      view = ⟨slot.body, usage.log.layout.words⟩ := by
  cases hslot : usage.log.slot usage.appender with
  | error problem => simp [hslot, Except.toOption] at hview
  | ok slot =>
      simp only [hslot, Except.toOption, Option.map_some, Option.toList_some,
        List.mem_singleton] at hview
      exact ⟨slot, rfl, hview⟩

section Kept

variable {usage : Usage} {layout : Layout} {capacity most : Nat}
  (h : usage.Kept layout capacity most)

include h

theorem Kept.withLog {log : Log} {more : Nat} (hlog : log.Kept layout capacity more)
    (hmore : most ≤ more) (appender : Appender) :
    { usage with log := log, appender := appender }.Kept layout capacity more := by
  refine ⟨hlog, fun tailer htailer => ?_, h.views⟩
  obtain ⟨index, hindex, hstands⟩ := h.tailers tailer htailer
  exact ⟨index, Nat.le_trans hindex hmore, hstands⟩

theorem Kept.setTailer (cursor : Nat) {tailer : Tailer} {index : Nat} (hindex : index ≤ most)
    (hstands : tailer.Stands layout index) :
    { usage with tailers := usage.tailers.set cursor tailer }.Kept layout capacity most := by
  refine ⟨h.log, fun other hother => ?_, h.views⟩
  rcases List.mem_or_eq_of_mem_set hother with hold | rfl
  · exact h.tailers other hold
  · exact ⟨index, hindex, hstands⟩

theorem Kept.pushViews {views : List View}
    (hviews : ∀ view ∈ views, Placed layout capacity view) :
    { usage with views := usage.views ++ views }.Kept layout capacity most := by
  refine ⟨h.log, h.tailers, fun view hview => ?_⟩
  rcases List.mem_append.mp hview with hold | hnew
  · exact h.views view hold
  · exact hviews view hnew

/-- The slot of the next record is in the log. -/
theorem Kept.slot_view {count : Nat} (hcount : count ≤ most)
    (happender : usage.appender = layout.appenderAt count) {slot : Slot}
    (hslot : usage.log.slot usage.appender = .ok slot) :
    layout.endAfter (count + 1) ≤ capacity ∧
      (⟨slot.body, usage.log.layout.words⟩ : View) = layout.viewAt count := by
  obtain rfl := h.log.layout_eq
  obtain rfl := h.log.capacity_eq
  rw [happender, slot_eq h.log.sound (Nat.le_trans hcount h.log.fits)] at hslot
  split_ifs at hslot with hfits
  cases hslot
  exact ⟨(lt_room_iff h.log.sound count).mp hfits, rfl⟩

/-- What an act lends lies in the log. -/
theorem Kept.lent_placed {act : Act}
    (happender : act.appends → ∃ count ≤ most, usage.appender = layout.appenderAt count) :
    ∀ view ∈ usage.lent act, Placed layout capacity view := by
  intro view hview
  obtain ⟨happends, slot, hslot, rfl⟩ := mem_lent hview
  obtain ⟨count, hcount, hstands⟩ := happender happends
  exact ⟨count, h.slot_view hcount hstands hslot⟩

theorem Kept.append {count : Nat} (hcount : count ≤ most)
    (happender : usage.appender = layout.appenderAt count) (words : List Word) :
    Does layout capacity most usage (.append words) (usage.append words) := by
  have hwidth := h.log.layout_eq
  have hstay : ∀ answer, (∀ index, answer ≠ .appended index) →
      (∀ fault, answer ≠ .broken fault) →
      Does layout capacity most usage (.append words) (usage, answer) := fun answer hone hother =>
    .stayed usage answer rfl rfl h hone fun fault hfault => absurd hfault (hother fault)
  unfold Usage.append Log.append
  rw [hwidth]
  split_ifs with hwide
  · exact hstay .refused (by simp) (by simp)
  · have htaken := taken_appendWith usage.log usage.appender (editsOf words)
    have hends := h.log.appendWith hcount (editsOf words)
    rw [← happender] at hends
    revert htaken hends
    generalize usage.log.appendWith usage.appender (editsOf words) = ending
    rintro htaken (⟨after, hkept⟩ | ⟨after, fault, hkept, edit, hedit, hfault⟩ |
      ⟨after, failure, hkept⟩)
    · exact .committed _ count rfl happender rfl (h.withLog hkept (Nat.le_max_left _ _) _)
    · have hnarrow : layout.words < wordLimit := hwidth ▸ h.log.sound.narrow
      obtain ⟨target, hok⟩ := editsOf_works hnarrow words (Nat.not_lt.mp hwide) edit hedit
      rw [hfault] at hok
      cases hok
    · exact .stayed _ _ happender.symm htaken (h.withLog hkept (Nat.le_refl _) _)
        (by simp [Answer.ofProblem]) (by simp [Answer.ofProblem])

theorem Kept.appendWith {count : Nat} (hcount : count ≤ most)
    (happender : usage.appender = layout.appenderAt count) (fill : List Edit) :
    Does layout capacity most usage (.appendWith fill) (usage.appendWith fill) := by
  have htaken := taken_appendWith usage.log usage.appender fill
  have hends := h.log.appendWith hcount fill
  rw [← happender] at hends
  unfold Usage.appendWith
  revert htaken hends
  generalize usage.log.appendWith usage.appender fill = ending
  rintro htaken (⟨after, hkept⟩ | ⟨after, fault, hkept, hfault⟩ | ⟨after, failure, hkept⟩)
  · refine .committed _ count rfl happender rfl
      ((h.withLog hkept (Nat.le_max_left _ _) _).pushViews fun view hview => ?_)
    obtain ⟨slot, hslot, rfl⟩ := mem_handed hview
    exact ⟨count, h.slot_view hcount happender hslot⟩
  · refine .stayed _ _ happender.symm htaken (h.withLog hkept (Nat.le_refl _) _)
      (by simp [Answer.ofProblem]) fun other hother => ?_
    cases hother
    exact hfault
  · exact .stayed _ _ happender.symm htaken (h.withLog hkept (Nat.le_refl _) _)
      (by simp [Answer.ofProblem]) (by simp [Answer.ofProblem])

theorem Kept.next (cursor : Nat) :
    Does layout capacity most usage (.next cursor) (usage.next cursor) := by
  unfold Usage.next
  cases htailer : usage.tailers[cursor]? with
  | none => exact .stayed _ _ rfl rfl h (by simp) (by simp)
  | some tailer =>
      obtain ⟨index, hindex, hstands⟩ := h.tailers tailer (List.mem_of_getElem? htailer)
      obtain rfl := h.log.layout_eq
      obtain rfl := h.log.capacity_eq
      have hread := Tailer.read_stands h.log.sound h.log.framed h.log.fits hindex hstands
      dsimp only
      rw [hread]
      split_ifs with hmore
      · have hmoved := h.setTailer cursor hmore (Tailer.end_stands _ (index + 1))
        refine .stayed _ _ rfl rfl (hmoved.pushViews fun view hview => ?_) (by simp) (by simp)
        obtain rfl := List.mem_singleton.mp hview
        have hfits := Nat.lt_of_lt_of_le hmore h.log.fits
        exact ⟨index, (lt_room_iff h.log.sound index).mp hfits, rfl⟩
      · exact .stayed _ _ rfl rfl (h.setTailer cursor hindex hstands) (by simp) (by simp)

theorem Kept.seek (cursor target : Nat) :
    Does layout capacity most usage (.seek cursor target) (usage.seek cursor target) := by
  unfold Usage.seek
  cases htailer : usage.tailers[cursor]? with
  | none => exact .stayed _ _ rfl rfl h (by simp) (by simp)
  | some tailer =>
      obtain ⟨index, hindex, hstands⟩ := h.tailers tailer (List.mem_of_getElem? htailer)
      obtain rfl := h.log.layout_eq
      obtain rfl := h.log.capacity_eq
      obtain ⟨final, hfinal, hseek⟩ :=
        Tailer.seek_stands h.log.sound h.log.framed h.log.fits target hindex hstands
      have hmoved := h.setTailer cursor (Nat.min_le_right target most) hfinal
      dsimp only
      rw [hseek]
      split_ifs with hthere
      · exact .stayed _ _ rfl rfl hmoved (by simp) (by simp)
      · exact .stayed _ _ rfl rfl hmoved (by simp [Answer.ofProblem, Problem.of])
          (by simp [Answer.ofProblem, Problem.of])

theorem Kept.edit (view : Nat) (change : Edit) :
    Does layout capacity most usage (.edit view change) (usage.edit view change) := by
  unfold Usage.edit
  cases hview : usage.views[view]? with
  | none => exact .stayed _ _ rfl rfl h (by simp) (by simp)
  | some held =>
      obtain ⟨index, hindex, rfl⟩ := h.views held (List.mem_of_getElem? hview)
      dsimp only
      unfold Log.edit
      cases htarget : change.target layout.words with
      | error fault =>
          simp only [Layout.viewAt, htarget]
          refine .stayed _ _ rfl rfl h (by simp) fun other hother => ?_
          cases hother
          exact htarget
      | ok target =>
          simp only [Layout.viewAt, htarget]
          exact .stayed _ _ rfl rfl (h.withLog
            (h.log.setBody (Edit.target_lt htarget) target.2) (Nat.le_refl _) _) (by simp) (by simp)

theorem Kept.pretouch : Does layout capacity most usage .pretouch usage.pretouch := by
  obtain ⟨reached, pages, hpretouch, hsound, -⟩ := pretouch_sound h.log.sound
  have hlog : { usage.log with pretouched := reached }.Kept layout capacity most :=
    h.log.of_words rfl rfl rfl hsound
  unfold Usage.pretouch
  rw [hpretouch]
  exact .stayed _ _ rfl rfl (h.withLog hlog (Nat.le_refl _) _) (by simp) (by simp)

/-- Every act keeps the frame, and it breaks by the caller's own fault alone. -/
theorem Kept.act (act : Act)
    (happender : act.appends → ∃ count ≤ most, usage.appender = layout.appenderAt count) :
    Does layout capacity most usage act (usage.act act) := by
  cases act with
  | append words =>
      obtain ⟨count, hcount, hstands⟩ := happender rfl
      exact h.append hcount hstands words
  | appendWith fill =>
      obtain ⟨count, hcount, hstands⟩ := happender rfl
      exact h.appendWith hcount hstands fill
  | tail =>
      refine .stayed _ _ rfl rfl ⟨h.log, fun tailer htailer => ?_, h.views⟩ (by simp) (by simp)
      rcases List.mem_append.mp htailer with hold | hnew
      · exact h.tailers tailer hold
      · obtain rfl := List.mem_singleton.mp hnew
        exact ⟨0, Nat.zero_le _, Tailer.start_stands layout⟩
  | next cursor => exact h.next cursor
  | seek cursor index => exact h.seek cursor index
  | edit view change => exact h.edit view change
  | look view =>
      refine .stayed _ _ rfl rfl h ?_ ?_ <;> (unfold look; split <;> simp)
  | count => exact .stayed _ _ rfl rfl h (by simp) (by simp)
  | pretouch => exact h.pretouch

theorem Kept.taken {act : Act}
    (happender : act.appends → ∃ count ≤ most, usage.appender = layout.appenderAt count) :
    (usage.act act).1.log.appenderTaken = usage.log.appenderTaken := by
  have happend : ∀ fill, (usage.appendWith fill).1.log.appenderTaken =
      usage.log.appenderTaken := by
    intro fill
    have htaken := taken_appendWith usage.log usage.appender fill
    unfold Usage.appendWith
    revert htaken
    rcases usage.log.appendWith usage.appender fill with ⟨log, appender, problem | index⟩ <;>
      exact id
  have hdoes := h.act act happender
  cases act with
  | append given =>
      have htaken := taken_appendWith usage.log usage.appender (editsOf given)
      change (usage.append given).1.log.appenderTaken = _
      unfold Usage.append Log.append
      split_ifs
      · rfl
      · revert htaken
        rcases usage.log.appendWith usage.appender (editsOf given) with
          ⟨log, appender, problem | index⟩ <;> exact id
  | appendWith fill => exact happend fill
  | _ =>
      generalize usage.act _ = result at hdoes
      cases hdoes with
      | committed after count happends hbefore hafter hkept => cases happends
      | stayed after answer happender htaken hkept hanswer hfault => exact htaken

end Kept

end Usage

/-! ### Whole histories -/

namespace Sessions

/-- The log keeps the frame of the longest session, and the appender that is out stands where the
records of its own session end. -/
structure Kept (sessions : Sessions) (layout : Layout) (capacity : Nat) : Prop where
  usage : sessions.usage.Kept layout capacity sessions.most
  appender : sessions.usage.log.appenderTaken → ∃ count rest,
    sessions.counts = count :: rest ∧ sessions.usage.appender = layout.appenderAt count

/-- What an append that succeeds finds and leaves: the appender moves from the slot behind the
records of its session to the next, and the header of the slot stands. -/
structure Appends (sessions : Sessions) (layout : Layout) (act : Act) (index : Nat) : Prop where
  counts : ∃ rest, sessions.counts = index :: rest
  appender : sessions.usage.appender = layout.appenderAt index
  room : index < sessions.usage.log.room
  moved : (sessions.use act).usage.appender = layout.appenderAt (index + 1)
  header : (sessions.use act).usage.log.word (layout.headerAt index) =
    Header.recordWord layout.bytes

theorem le_most {sessions : Sessions} {count : Nat} {rest : List Nat}
    (hcounts : sessions.counts = count :: rest) : count ≤ sessions.most := by
  rw [most, hcounts, List.foldr_cons]
  exact Nat.le_max_left _ _

/-- One record more in the latest session. -/
theorem most_commit {sessions : Sessions} {count : Nat} {rest : List Nat}
    (hcounts : sessions.counts = count :: rest) :
    (sessions.counts.modifyHead (· + 1)).foldr max 0 = max sessions.most (count + 1) := by
  rw [most, hcounts, List.modifyHead_cons, List.foldr_cons, List.foldr_cons]
  omega

theorem use_log (sessions : Sessions) (act : Act) :
    (sessions.use act).usage.log = (sessions.usage.act act).1.log := by
  unfold use
  split
  case h_1 heq => rw [heq]
  case h_2 heq => rw [heq]
  case h_3 heq => rw [heq]

theorem use_appended {sessions : Sessions} {act : Act}
    (h : ∃ index, (sessions.usage.act act).2 = .appended index) :
    (sessions.use act).counts = sessions.counts.modifyHead (· + 1) := by
  unfold use
  revert h
  rcases sessions.usage.act act with ⟨after, answer⟩
  rintro ⟨index, rfl⟩
  rfl

theorem use_other {sessions : Sessions} {act : Act}
    (h : ¬ ∃ index, (sessions.usage.act act).2 = .appended index) :
    (sessions.use act).counts = sessions.counts := by
  unfold use
  revert h
  rcases sessions.usage.act act with ⟨after, answer⟩
  intro h
  cases answer with
  | appended index => exact absurd ⟨index, rfl⟩ h
  | _ => rfl

theorem run_append (sessions : Sessions) (first second : List Call) :
    sessions.run (first ++ second) = (sessions.run first).run second :=
  List.foldl_append

theorem begin_empty {log : Log} {content : Nat → Nat → Word} (h : log.Holds 0 content)
    (huntaken : log.appenderTaken = false) : (begin log).Kept log.layout log.capacity := by
  refine ⟨⟨⟨rfl, rfl, h.sound, h.framed, h.fits⟩, by simp [begin], by simp [begin]⟩,
    fun hout => ?_⟩
  simp only [begin, huntaken] at hout
  cases hout

theorem begin_kept {storage after : Storage} {directory name : String} {stages bytes : Nat}
    {layout : Layout} {log : Log} (hlayout : Layout.ofStages stages = .ok layout)
    (hcreate : Log.create storage directory name layout bytes = (after, .ok log)) :
    (begin log).Kept layout log.capacity := by
  obtain ⟨hholds, rfl, huntaken⟩ := create_holds (Layout.ofStages_ok hlayout).1 hcreate
  exact begin_empty hholds huntaken

section Kept

variable {sessions : Sessions} {layout : Layout} {capacity : Nat}
  (h : sessions.Kept layout capacity)

include h

theorem Kept.current (hout : sessions.usage.log.appenderTaken) : ∃ count rest,
    sessions.counts = count :: rest ∧ count ≤ sessions.most ∧
      sessions.usage.appender = layout.appenderAt count := by
  obtain ⟨count, rest, hcounts, happender⟩ := h.appender hout
  exact ⟨count, rest, hcounts, le_most hcounts, happender⟩

theorem Kept.holder (hout : sessions.usage.log.appenderTaken) :
    ∃ count ≤ sessions.most, sessions.usage.appender = layout.appenderAt count := by
  obtain ⟨count, rest, -, hcount, happender⟩ := h.current hout
  exact ⟨count, hcount, happender⟩

theorem Kept.does {act : Act} (hout : act.appends → sessions.usage.log.appenderTaken) :
    sessions.usage.Does layout capacity sessions.most act (sessions.usage.act act) :=
  h.usage.act act fun happends => h.holder (hout happends)

theorem Kept.use {act : Act} (hout : act.appends → sessions.usage.log.appenderTaken) :
    (sessions.use act).Kept layout capacity := by
  have hdoes := h.does hout
  have hlent := h.usage.lent_placed fun happends => h.holder (hout happends)
  unfold Sessions.use
  generalize sessions.usage.act act = result at hdoes
  cases hdoes with
  | committed after count happends hbefore hafter hkept =>
      obtain ⟨current, rest, hcounts, happender⟩ := h.appender (hout happends)
      obtain rfl : current = count := congrArg Appender.next (happender.symm.trans hbefore)
      rw [← most_commit hcounts] at hkept
      exact ⟨hkept, fun _ => ⟨current + 1, rest, by rw [hcounts]; rfl, hafter⟩⟩
  | stayed after answer happender htaken hkept hanswer hfault =>
      have hout' : after.log.appenderTaken → ∃ count rest, sessions.counts = count :: rest ∧
          after.appender = layout.appenderAt count := by
        rw [htaken, happender]
        exact h.appender
      cases answer with
      | appended index => exact absurd rfl (hanswer index)
      | broken fault => exact ⟨hkept.pushViews hlent, hout'⟩
      | _ => exact ⟨hkept, hout'⟩

theorem Kept.appends {act : Act} {index : Nat} (hout : sessions.usage.log.appenderTaken)
    (hanswer : (sessions.usage.act act).2 = .appended index) :
    sessions.Appends layout act index := by
  have hdoes : sessions.usage.Does layout capacity sessions.most act (sessions.usage.act act) :=
    h.does fun _ => hout
  obtain ⟨count, rest, hcounts, happender⟩ := h.appender hout
  generalize hresult : sessions.usage.act act = result at hdoes hanswer
  cases hdoes with
  | committed after other _ hbefore hafter hkept =>
      cases hanswer
      obtain rfl : count = index := congrArg Appender.next (happender.symm.trans hbefore)
      have huse : sessions.use act = ⟨after, sessions.counts.modifyHead (· + 1)⟩ := by
        unfold Sessions.use
        rw [hresult]
      have hroom : after.log.room = sessions.usage.log.room := by
        simp only [Log.room, hkept.log.layout_eq, hkept.log.capacity_eq, h.usage.log.layout_eq,
          h.usage.log.capacity_eq]
      have hfits := hkept.log.fits
      have hheader := hkept.log.framed.header count
      rw [hkept.log.layout_eq, if_pos (by omega)] at hheader
      exact ⟨⟨rest, hcounts⟩, hbefore, by omega, by rw [huse]; exact hafter, by rwa [huse]⟩
  | stayed after answer _ _ _ hnone _ => exact absurd hanswer (hnone index)

theorem Kept.call (call : Call) : (sessions.call call).Kept layout capacity := by
  have hsame : ∀ taken : Bool,
      { sessions.usage.log with appenderTaken := taken }.Kept layout capacity sessions.most :=
    fun taken => h.usage.log.of_words rfl rfl rfl
      ⟨h.usage.log.sound.layout, h.usage.log.sound.pages, h.usage.log.sound.one_page,
        h.usage.log.sound.small, h.usage.log.sound.touched, h.usage.log.sound.written⟩
  cases call with
  | take =>
      simp only [Sessions.call, takeAppender]
      split_ifs with hout
      · exact h
      · have hmost : (0 :: sessions.counts).foldr max 0 = sessions.most := Nat.zero_max _
        refine ⟨?_, fun _ => ⟨0, sessions.counts, rfl, rfl⟩⟩
        simp only [most, hmost]
        exact h.usage.withLog (hsame true) (Nat.le_refl _) _
  | release =>
      refine ⟨h.usage.withLog (hsame false) (Nat.le_refl _) _, fun hout => ?_⟩
      cases hout
  | use act =>
      simp only [Sessions.call]
      split_ifs with habsent
      · exact h
      · apply h.use
        simpa using habsent

theorem Kept.run (calls : List Call) : (sessions.run calls).Kept layout capacity := by
  unfold Sessions.run
  induction calls generalizing sessions with
  | nil => exact h
  | cons first rest ih => exact ih (h.call first)

end Kept

end Sessions

end GatedPipeline.Log
