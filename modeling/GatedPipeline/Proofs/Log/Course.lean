import GatedPipeline.Proofs.Log.Sessions

/-!
A log over its whole life, seen store by store. A call can be made as a whole; an append can also
be taken apart into its single stores, and between any two of them cursors are made and read, words
are written through views and pages are touched. So the log is met in the middle of an append as
well, with a filler stored and the header behind it not, and a cursor may have passed that filler.

Whatever the course, so many fillers and headers stand in the log, and every cursor stands in front
of a record whose header is among them or comes next.
-/

namespace GatedPipeline.Log

def Sessions.answer (sessions : Sessions) : Call → Answer
  | .take =>
      match sessions.usage.log.takeAppender with
      | .ok _ => .done
      | .error _ => .refused
  | .release => .done
  | .use act =>
      if act.appends ∧ ¬ sessions.usage.log.appenderTaken then .absent
      else (sessions.usage.act act).2

def Call.ofAppender : Call → Bool
  | .take => false
  | .release => true
  | .use act => act.appends

/-- A log over its life so far, and the append under way with the stores it has still to make. -/
structure Course extends Sessions where
  underway : Option Plan

namespace Course

/-- What happens next: a whole call, the beginning of an append that is made store by store, or its
next store. -/
inductive Step where
  | call (call : Call)
  | plan (fill : List Edit)
  | store

def begin (log : Log) : Course := ⟨.begin log, none⟩

def bars (course : Course) (call : Call) : Bool := course.underway.isSome && call.ofAppender

/-- A fill that is made store by store may pass on the view it writes through at once. -/
def plan (course : Course) (fill : List Edit) : Course :=
  let usage := course.usage
  ⟨⟨{ usage with views := usage.views ++ usage.lent (.appendWith fill) }, course.counts⟩,
    some (usage.log.plan usage.appender fill)⟩

def store (course : Course) : Course :=
  let usage := course.usage
  match course.underway with
  | none => course
  | some ⟨store :: rest, outcome⟩ =>
      ⟨⟨{ usage with log := usage.log.store store }, course.counts⟩, some ⟨rest, outcome⟩⟩
  | some ⟨[], .ok appender⟩ =>
      ⟨⟨{ usage with appender := appender }, course.counts.modifyHead (· + 1)⟩, none⟩
  | some ⟨[], .error _⟩ => ⟨course.toSessions, none⟩

/-- The course after one step. A step that nobody can make changes nothing. -/
def step (course : Course) : Step → Course
  | .call call =>
      if course.bars call then course else ⟨course.toSessions.call call, course.underway⟩
  | .plan fill =>
      if course.underway.isNone ∧ course.usage.log.appenderTaken then course.plan fill else course
  | .store => course.store

def answer (course : Course) : Step → Answer
  | .call call => if course.bars call then .absent else course.toSessions.answer call
  | .plan _ | .store => .done

def run (course : Course) (steps : List Step) : Course := steps.foldl step course

def answers (course : Course) : List Step → List Answer
  | [] => []
  | first :: rest => course.answer first :: (course.step first).answers rest

/-- While no append is under way, whoever has the appender can append. -/
theorem step_append {course : Course} (hrests : course.underway = none)
    (hout : course.usage.log.appenderTaken) (act : Act) :
    course.step (.call (.use act)) = ⟨course.toSessions.use act, none⟩ ∧
      course.answer (.call (.use act)) = (course.usage.act act).2 := by
  simp [step, answer, bars, hrests, Sessions.call, Sessions.answer, hout]

def finish (course : Course) : Plan → Course
  | ⟨stores, .ok appender⟩ =>
      ⟨⟨{ course.usage with log := course.usage.log.storeAll stores, appender := appender },
        course.counts.modifyHead (· + 1)⟩, none⟩
  | ⟨stores, .error _⟩ =>
      ⟨⟨{ course.usage with log := course.usage.log.storeAll stores }, course.counts⟩, none⟩

theorem run_stores (plan : Plan) {course : Course} (hunder : course.underway = some plan) :
    course.run (List.replicate (plan.stores.length + 1) .store) = course.finish plan := by
  obtain ⟨stores, outcome⟩ := plan
  induction stores generalizing course with
  | nil => cases outcome <;> simp [run, step, store, hunder, finish, storeAll]
  | cons first rest ih =>
      have hstep : course.step .store = ⟨⟨{ course.usage with
          log := course.usage.log.store first }, course.counts⟩, some ⟨rest, outcome⟩⟩ := by
        simp only [step, store, hunder]
      calc course.run (List.replicate ((first :: rest).length + 1) .store)
          = (course.step .store).run (List.replicate (rest.length + 1) .store) := rfl
        _ = (course.step .store).finish ⟨rest, outcome⟩ := ih (by rw [hstep])
        _ = course.finish ⟨first :: rest, outcome⟩ := by
            rw [hstep]
            cases outcome <;> rfl

/-- With nothing in between, the steps of an append come to the append as a whole. -/
theorem run_appendWith {course : Course} (hrests : course.underway = none)
    (hout : course.usage.log.appenderTaken) (fill : List Edit) :
    course.run (.plan fill :: List.replicate
        ((course.usage.log.plan course.usage.appender fill).stores.length + 1) .store) =
      course.step (.call (.use (.appendWith fill))) := by
  have hplan : course.step (.plan fill) = course.plan fill := by simp [step, hrests, hout]
  have hunder : (course.step (.plan fill)).underway =
      some (course.usage.log.plan course.usage.appender fill) := by
    rw [hplan]
    rfl
  rw [(step_append hrests hout _).1]
  refine (run_stores _ hunder).trans ?_
  rw [hplan]
  unfold Sessions.use
  simp only [Course.plan, Usage.act, Usage.appendWith, Log.appendWith, Usage.lent]
  cases hslot : course.usage.log.slot course.usage.appender with
  | error problem =>
      have hnone : course.usage.log.plan course.usage.appender fill = ⟨[], .error problem⟩ := by
        simp only [Log.plan, hslot]
      simp only [hnone, finish, List.append_nil]
      cases problem <;> rfl
  | ok slot =>
      rcases hfill : fillStores slot.body course.usage.log.layout.words fill with
        ⟨stores, fault | ⟨⟩⟩
      · have hbroken : course.usage.log.plan course.usage.appender fill =
            ⟨stores, .error (.broken fault)⟩ := by
          simp only [Log.plan, hslot, hfill]
        simp only [hbroken, finish]
        rfl
      · simp only [Log.plan, hslot, hfill, finish]
        rfl

end Course

/-! ### The log and its readers at any moment -/

namespace Usage

/-- So many fillers and headers stand in the log, and every cursor stands in front of a record whose
header is among them or comes next. -/
structure Amid (usage : Usage) (layout : Layout) (capacity fillers records : Nat) : Prop where
  layout_eq : usage.log.layout = layout
  capacity_eq : usage.log.capacity = capacity
  sound : usage.log.Sound
  framed : usage.log.Framed fillers records
  order : records ≤ fillers
  fits : fillers ≤ usage.log.room
  tailers : ∀ tailer ∈ usage.tailers, ∃ index ≤ records, tailer.Stands layout index
  views : ∀ view ∈ usage.views, Placed layout capacity view

variable {usage : Usage} {layout : Layout} {capacity fillers records : Nat}

theorem Kept.amid (h : usage.Kept layout capacity records) :
    usage.Amid layout capacity records records :=
  ⟨h.log.layout_eq, h.log.capacity_eq, h.log.sound, h.log.framed, Nat.le_refl _, h.log.fits,
    h.tailers, h.views⟩

theorem Amid.kept (h : usage.Amid layout capacity records records) :
    usage.Kept layout capacity records :=
  ⟨⟨h.layout_eq, h.capacity_eq, h.sound, h.framed, h.fits⟩, h.tailers, h.views⟩

section Amid

variable (h : usage.Amid layout capacity fillers records)

include h

theorem Amid.setTailer (cursor : Nat) {tailer : Tailer} {index : Nat} (hindex : index ≤ records)
    (hstands : tailer.Stands layout index) :
    { usage with tailers := usage.tailers.set cursor tailer }.Amid
      layout capacity fillers records := by
  refine { h with tailers := fun other hother => ?_ }
  rcases List.mem_or_eq_of_mem_set hother with hold | rfl
  · exact h.tailers other hold
  · exact ⟨index, hindex, hstands⟩

theorem Amid.pushViews {views : List View}
    (hviews : ∀ view ∈ views, Placed layout capacity view) :
    { usage with views := usage.views ++ views }.Amid layout capacity fillers records := by
  refine { h with views := fun view hview => ?_ }
  rcases List.mem_append.mp hview with hold | hnew
  · exact h.views view hold
  · exact hviews view hnew

/-- What happens to the log alone. The fillers and headers may be more than before. -/
theorem Amid.withLog (log : Log) {fillers' records' : Nat} (hlayout : log.layout = layout)
    (hcapacity : log.capacity = capacity) (hsound : log.Sound)
    (hframed : log.Framed fillers' records') (horder : records' ≤ fillers')
    (hfits : fillers' ≤ usage.log.room) (hmore : records ≤ records') (appender : Appender) :
    { usage with log := log, appender := appender }.Amid layout capacity fillers' records' := by
  refine ⟨hlayout, hcapacity, hsound, hframed, horder, ?_, fun tailer htailer => ?_, h.views⟩
  · simp only [Log.room, hlayout, hcapacity]
    rw [← h.layout_eq, ← h.capacity_eq]
    exact hfits
  · obtain ⟨index, hindex, hstands⟩ := h.tailers tailer htailer
    exact ⟨index, Nat.le_trans hindex hmore, hstands⟩

/-- The record lies in the log once its header stands. -/
theorem Amid.placed {index : Nat} (hindex : index < records) :
    Placed layout capacity (layout.viewAt index) := by
  obtain rfl := h.layout_eq
  obtain rfl := h.capacity_eq
  have hroom := Nat.le_trans (Nat.le_trans hindex h.order) h.fits
  exact ⟨index, (lt_room_iff h.sound index).mp hroom, rfl⟩

section Cursor

variable {cursor : Nat} {tailer : Tailer} {index : Nat}
  (hheld : usage.tailers[cursor]? = some tailer) (hindex : index ≤ records)
  (hstands : tailer.Stands layout index)

include hheld hindex hstands

/-- A read finds the record in front of the cursor once its header stands. -/
theorem Amid.next_eq :
    ∃ after, after.Stands layout (if index < records then index + 1 else index) ∧
      usage.next cursor =
        if index < records then
          ({ usage with
              tailers := usage.tailers.set cursor after,
              views := usage.views ++ [layout.viewAt index] },
            .record index (usage.log.record (layout.viewAt index)).words)
        else ({ usage with tailers := usage.tailers.set cursor after }, .nothing) := by
  obtain rfl := h.layout_eq
  obtain ⟨after, hafter, hread⟩ :=
    Tailer.read_moment h.sound h.framed h.order h.fits hindex hstands
  refine ⟨after, hafter, ?_⟩
  simp only [Usage.next, hheld, hread]
  by_cases hmore : index < records
  · simp only [if_pos hmore]
    rfl
  · simp only [if_neg hmore]

theorem Amid.seek_eq (target : Nat) :
    ∃ after, after.Stands layout (min target records) ∧
      usage.seek cursor target = ({ usage with tailers := usage.tailers.set cursor after },
        if target ≤ records then .done else .refused) := by
  obtain rfl := h.layout_eq
  obtain ⟨after, hafter, hseek⟩ :=
    Tailer.seek_moment h.sound h.framed h.order h.fits target hindex hstands
  refine ⟨after, hafter, ?_⟩
  simp only [Usage.seek, hheld, hseek]
  by_cases hthere : target ≤ records
  · simp only [if_pos hthere]
  · simp only [if_neg hthere]
    rfl

end Cursor

/-! What an act does that needs no appender. -/

theorem Amid.next (cursor : Nat) : (usage.next cursor).1.Amid layout capacity fillers records ∧
    (usage.next cursor).1.appender = usage.appender ∧ (usage.next cursor).1.log = usage.log ∧
    ∀ index, (usage.next cursor).2 ≠ .appended index := by
  cases hheld : usage.tailers[cursor]? with
  | none =>
      simp only [Usage.next, hheld]
      exact ⟨h, trivial, trivial, by simp⟩
  | some tailer =>
      obtain ⟨index, hindex, hstands⟩ := h.tailers tailer (List.mem_of_getElem? hheld)
      obtain ⟨after, hafter, hnext⟩ := h.next_eq hheld hindex hstands
      rw [hnext]
      split_ifs at hafter ⊢ with hmore
      · refine ⟨(h.setTailer cursor hmore hafter).pushViews fun view hview => ?_, rfl, rfl, by simp⟩
        obtain rfl := List.mem_singleton.mp hview
        exact h.placed hmore
      · exact ⟨h.setTailer cursor hindex hafter, rfl, rfl, by simp⟩

theorem Amid.seek (cursor target : Nat) :
    (usage.seek cursor target).1.Amid layout capacity fillers records ∧
      (usage.seek cursor target).1.appender = usage.appender ∧
      (usage.seek cursor target).1.log = usage.log ∧
      ∀ index, (usage.seek cursor target).2 ≠ .appended index := by
  cases hheld : usage.tailers[cursor]? with
  | none =>
      simp only [Usage.seek, hheld]
      exact ⟨h, trivial, trivial, by simp⟩
  | some tailer =>
      obtain ⟨index, hindex, hstands⟩ := h.tailers tailer (List.mem_of_getElem? hheld)
      obtain ⟨after, hafter, hseek⟩ := h.seek_eq hheld hindex hstands target
      rw [hseek]
      refine ⟨h.setTailer cursor (Nat.min_le_right target records) hafter, rfl, rfl,
        fun index => ?_⟩
      split_ifs <;> simp

/-- An edit writes one word of a body, or nothing. -/
theorem Amid.edit_cases (view : Nat) (change : Edit) :
    (∃ answer, usage.edit view change = (usage, answer) ∧ ∀ index, answer ≠ .appended index) ∨
      ∃ index word value, word < layout.words ∧ usage.views[view]? = some (layout.viewAt index) ∧
        change.target layout.words = .ok (word, value) ∧ usage.edit view change =
          ({ usage with log := usage.log.setWord (layout.bodyAt index + word * 8) value },
            .done) := by
  unfold Usage.edit
  cases hview : usage.views[view]? with
  | none => exact .inl ⟨_, rfl, by simp⟩
  | some held =>
      obtain ⟨index, -, rfl⟩ := h.views held (List.mem_of_getElem? hview)
      dsimp only
      unfold Log.edit
      cases htarget : change.target layout.words with
      | error fault =>
          simp only [Layout.viewAt, htarget]
          exact .inl ⟨_, rfl, by simp⟩
      | ok target =>
          simp only [Layout.viewAt, htarget]
          exact .inr ⟨index, target.1, target.2, Edit.target_lt htarget, rfl, rfl, rfl⟩

theorem Amid.pretouch_eq : ∃ reached, usage.pretouch =
    ({ usage with log := { usage.log with pretouched := reached } }, .done) ∧
      { usage.log with pretouched := reached }.Sound := by
  obtain ⟨reached, pages, hpretouch, hsound, -⟩ := pretouch_sound h.sound
  refine ⟨reached, ?_, hsound⟩
  rw [Usage.pretouch, hpretouch]
  rfl

/-- An act that needs no appender leaves the frame, the appender and its being out as they are, and
appends nothing. -/
theorem Amid.act {act : Act} (hreads : act.appends = false) :
    (usage.act act).1.Amid layout capacity fillers records ∧
      (usage.act act).1.appender = usage.appender ∧
      (usage.act act).1.log.appenderTaken = usage.log.appenderTaken ∧
      ∀ index, (usage.act act).2 ≠ .appended index := by
  cases act with
  | append given => cases hreads
  | appendWith fill => cases hreads
  | tail =>
      refine ⟨{ h with tailers := fun tailer htailer => ?_ }, rfl, rfl, by simp [Usage.act]⟩
      rcases List.mem_append.mp htailer with hold | hnew
      · exact h.tailers tailer hold
      · obtain rfl := List.mem_singleton.mp hnew
        exact ⟨0, Nat.zero_le _, Tailer.start_stands layout⟩
  | next cursor =>
      obtain ⟨hamid, happender, hlog, hanswer⟩ := h.next cursor
      exact ⟨hamid, happender, congrArg Log.appenderTaken hlog, hanswer⟩
  | seek cursor index =>
      obtain ⟨hamid, happender, hlog, hanswer⟩ := h.seek cursor index
      exact ⟨hamid, happender, congrArg Log.appenderTaken hlog, hanswer⟩
  | edit view change =>
      obtain ⟨answer, hedit, hanswer⟩ | ⟨index, word, value, hword, -, -, hedit⟩ :=
        h.edit_cases view change
      · rw [show usage.act (.edit view change) = _ from hedit]
        exact ⟨h, rfl, rfl, hanswer⟩
      · obtain rfl := h.layout_eq
        rw [show usage.act (.edit view change) = _ from hedit]
        exact ⟨h.withLog (usage.log.setWord (usage.log.layout.bodyAt index + word * 8) value) rfl
          h.capacity_eq (h.sound.setWord _ _) (h.framed.setBody hword value) h.order h.fits
          (Nat.le_refl _) usage.appender, rfl, rfl, by simp⟩
  | look view => exact ⟨h, rfl, rfl, fun index => by simp only [Usage.act, look]; split <;> simp⟩
  | count => exact ⟨h, rfl, rfl, by simp [Usage.act]⟩
  | pretouch =>
      obtain ⟨reached, hpretouch, hsound⟩ := h.pretouch_eq
      rw [show usage.act .pretouch = _ from hpretouch]
      exact ⟨h.withLog { usage.log with pretouched := reached } h.layout_eq h.capacity_eq hsound
        (h.framed.of_words rfl rfl) h.order h.fits (Nat.le_refl _) usage.appender, rfl, rfl,
        by simp⟩

end Amid

end Usage

/-! ### The append under way -/

/-- One store takes an append of record `count` one phase further, also where an earlier session has
committed `most` records. -/
theorem Phase.store {log : Log} {most count : Nat} {phase : Phase} {first : Store}
    {rest : List Store} (hsound : log.Sound)
    (hframed : log.Framed (max most (phase.fillers count)) (max most (phase.records count)))
    (hcount : count ≤ most) (hroom : count < log.room)
    (hworks : ∀ edit ∈ phase.todo, edit.Works log.layout.words)
    (hrest : phase.rest log.layout count = first :: rest) :
    ∃ next : Phase, next.rest log.layout count = rest ∧
      (∀ edit ∈ next.todo, edit.Works log.layout.words) ∧
      phase.records count ≤ next.records count ∧ (log.store first).Sound ∧
      (log.store first).Framed (max most (next.fillers count)) (max most (next.records count)) := by
  have hmost : max most count = most := Nat.max_eq_left hcount
  have hgap := (log.layout.entry_bounds count).1
  cases phase with
  | filling todo =>
      simp only [Phase.fillers, Phase.records, hmost] at hframed
      cases todo with
      | nil =>
          simp only [Phase.rest, fillStores, List.nil_append, Layout.commitStores, paddingStores]
            at hrest
          split_ifs at hrest with hsame
          · obtain ⟨rfl, rfl⟩ := List.cons.inj hrest
            have hpassed := hframed.passFiller hcount (by omega)
            exact ⟨.committed, rfl, by simp [Phase.todo], Nat.le_succ _, hsound.setWord _ _,
              hpassed.storeHeader hcount⟩
          · obtain ⟨rfl, rfl⟩ := List.cons.inj hrest
            refine ⟨.padded, rfl, by simp [Phase.todo], Nat.le_refl _, hsound.setWord _ _, ?_⟩
            simp only [Phase.fillers, Phase.records, hmost]
            exact hframed.storeFiller hcount (by omega)
      | cons edit todo =>
          obtain ⟨⟨word, value⟩, htarget⟩ := hworks edit (by simp [Phase.todo])
          simp only [Phase.rest, fillStores, htarget] at hrest
          obtain ⟨rfl, rfl⟩ := List.cons.inj hrest
          refine ⟨.filling todo, rfl, fun other hother => hworks other ?_, Nat.le_refl _,
            hsound.setWord _ _, ?_⟩
          · simp only [Phase.todo] at hother
            simp [Phase.todo, hother]
          · simp only [Phase.fillers, Phase.records, hmost]
            exact hframed.setBody (Edit.target_lt htarget) value
  | padded =>
      simp only [Phase.fillers, Phase.records, hmost] at hframed
      obtain ⟨rfl, rfl⟩ := List.cons.inj hrest
      exact ⟨.committed, rfl, by simp [Phase.todo], Nat.le_succ _, hsound.setWord _ _,
        hframed.storeHeader hcount⟩
  | committed =>
      obtain ⟨rfl, rfl⟩ := List.cons.inj hrest
      have hend := (lt_room_iff hsound count).mp hroom
      exact ⟨.placed, rfl, by simp [Phase.todo], Nat.le_refl _, ⟨hsound.layout, hsound.pages,
        hsound.one_page, hsound.small, hsound.touched, hend⟩, hframed.of_words rfl rfl⟩
  | placed =>
      obtain ⟨rfl, rfl⟩ := List.cons.inj hrest
      exact ⟨.counted, rfl, by simp [Phase.todo], Nat.le_refl _, ⟨hsound.layout, hsound.pages,
        hsound.one_page, hsound.small, hsound.touched, hsound.written⟩, hframed.of_words rfl rfl⟩
  | counted => cases hrest

/-- A call that needs no appender leaves the counts as they are, and lends no view. -/
theorem Sessions.call_reads {sessions : Sessions} {act : Act} (hreads : act.appends = false)
    (hanswer : ∀ index, (sessions.usage.act act).2 ≠ .appended index) :
    sessions.call (.use act) = ⟨(sessions.usage.act act).1, sessions.counts⟩ := by
  have hlent : sessions.usage.lent act = [] := by
    cases act <;> first | rfl | cases hreads
  simp only [Sessions.call, hreads, Bool.false_eq_true, false_and, if_false, Sessions.use]
  revert hanswer
  rcases sessions.usage.act act with ⟨after, answer⟩
  intro hanswer
  cases answer with
  | appended index => exact absurd rfl (hanswer index)
  | broken fault => simp [hlent]
  | _ => rfl

namespace Course

/-- How far the append under way of record `count` has come. -/
inductive Awaits (layout : Layout) (room most count : Nat) :
    Option Plan → (fillers records : Nat) → Prop
  | resting : Awaits layout room most count none most most
  | appending (phase : Phase) (hroom : count < room)
      (hworks : ∀ edit ∈ phase.todo, edit.Works layout.words) :
      Awaits layout room most count
        (some ⟨phase.rest layout count, .ok (layout.appenderAt (count + 1))⟩)
        (max most (phase.fillers count)) (max most (phase.records count))
  | breaking (stores : List Store) (problem : Problem)
      (hbody : ∀ store ∈ stores, ∃ word value, word < layout.words ∧
        store = .word (layout.bodyAt count + word * 8) value) :
      Awaits layout room most count (some ⟨stores, .error problem⟩) most most

/-- What every step of a course keeps. Between two steps the log has so many fillers and so many
records, and the append under way accounts for the difference. The appender, when it is out, is
behind the records of the latest session. -/
structure Kept (course : Course) (layout : Layout) (capacity fillers records : Nat) : Prop where
  usage : course.usage.Amid layout capacity fillers records
  appender : course.usage.log.appenderTaken → ∃ count rest,
    course.counts = count :: rest ∧ course.usage.appender = layout.appenderAt count
  held : course.underway.isSome → course.usage.log.appenderTaken
  underway : Awaits layout course.usage.log.room course.most course.usage.appender.next
    course.underway fillers records

/-- Between two calls a course is a log with its sessions. -/
theorem kept_of_sessions {sessions : Sessions} {layout : Layout} {capacity : Nat}
    (h : sessions.Kept layout capacity) :
    Kept ⟨sessions, none⟩ layout capacity sessions.most sessions.most :=
  ⟨h.usage.amid, h.appender, by simp, .resting⟩

section Kept

variable {course : Course} {layout : Layout} {capacity fillers records : Nat}
  (h : course.Kept layout capacity fillers records)

include h

theorem Kept.resting (hrests : course.underway = none) :
    course.toSessions.Kept layout capacity := by
  have hunderway := h.underway
  rw [hrests] at hunderway
  obtain ⟨⟩ := hunderway
  exact ⟨h.usage.kept, h.appender⟩

/-- While an append is under way the appender is neither taken nor given back. -/
theorem Kept.call_under_way (hunder : course.underway.isSome) (call : Call) :
    (course.step (.call call)).Kept layout capacity fillers records := by
  have hout := h.held hunder
  simp only [step, bars, hunder, Bool.true_and]
  split_ifs with hbarred
  · exact h
  · cases call with
    | take =>
        have htake : course.usage.log.takeAppender =
            .error (.of (.appenderTaken course.usage.log.name)) := if_pos hout
        simp only [Sessions.call, htake]
        exact h
    | release => exact absurd rfl hbarred
    | use act =>
        have hreads : act.appends = false := by simpa [Call.ofAppender] using hbarred
        obtain ⟨hamid, happender, htaken, hanswer⟩ := h.usage.act hreads
        have huse : course.toSessions.call (.use act) =
            ⟨(course.usage.act act).1, course.counts⟩ :=
          Sessions.call_reads hreads hanswer
        have hunderway := h.underway
        rw [huse]
        refine ⟨hamid, ?_, fun _ => htaken.trans hout, ?_⟩
        · rw [htaken, happender]
          exact h.appender
        · have hroom : (course.usage.act act).1.log.room = course.usage.log.room := by
            simp only [Log.room, hamid.layout_eq, hamid.capacity_eq, h.usage.layout_eq,
              h.usage.capacity_eq]
          rw [happender, hroom]
          exact hunderway

theorem Kept.call (call : Call) : ∃ fillers' records',
    (course.step (.call call)).Kept layout capacity fillers' records' := by
  cases hunder : course.underway with
  | none =>
      have hsessions := (h.resting hunder).call call
      have hstep : course.step (.call call) = ⟨course.toSessions.call call, none⟩ := by
        simp [step, bars, hunder]
      rw [hstep]
      exact ⟨_, _, kept_of_sessions hsessions⟩
  | some plan => exact ⟨_, _, h.call_under_way (by simp [hunder]) call⟩

theorem Kept.plan (fill : List Edit) :
    (course.step (.plan fill)).Kept layout capacity fillers records := by
  simp only [step]
  split_ifs with hready
  · obtain ⟨hrests, hout⟩ := hready
    have hsessions := h.resting (by simpa using hrests)
    obtain ⟨count, rest, hcounts, hcount, happender⟩ := hsessions.current hout
    have hlent : ∀ view ∈ course.usage.lent (.appendWith fill), Placed layout capacity view :=
      hsessions.usage.lent_placed fun _ => ⟨count, hcount, happender⟩
    have hunderway := h.underway
    rw [Option.isNone_iff_eq_none.mp hrests] at hunderway
    obtain ⟨⟩ := hunderway
    refine ⟨h.usage.pushViews hlent, h.appender, fun _ => hout, ?_⟩
    obtain rfl := h.usage.layout_eq
    have hfits := Nat.le_trans hcount h.usage.fits
    have hmost : max course.most count = course.most := Nat.max_eq_left hcount
    have hbody := fillStores_body (course.usage.log.layout.bodyAt count)
      course.usage.log.layout.words fill
    have hworks := works_of_fillStores (course.usage.log.layout.bodyAt count)
      course.usage.log.layout.words fill
    simp only [Course.plan, happender, plan_eq h.usage.sound hfits fill]
    split_ifs with hroom
    · rcases hstores : fillStores (course.usage.log.layout.bodyAt count)
        course.usage.log.layout.words fill with ⟨stores, fault | ⟨⟩⟩
      · rw [hstores] at hbody
        exact .breaking stores (.broken fault) hbody
      · rw [hstores] at hworks
        have hfilling :
            Awaits course.usage.log.layout course.usage.log.room course.most count _ _ _ :=
          .appending (.filling fill) hroom (hworks rfl)
        simp only [Phase.rest, hstores, Phase.fillers, Phase.records, hmost] at hfilling
        exact hfilling
    · exact .breaking [] _ (by simp)
  · exact h

/-- The store that is next leaves the appender alone, and the rest of the append is still to come.
-/
theorem Kept.stored {first : Store} {rest : List Store} {outcome : Except Problem Appender}
    (hunder : course.underway = some ⟨first :: rest, outcome⟩) {fillers' records' : Nat}
    (husage : { course.usage with log := course.usage.log.store first }.Amid
      layout capacity fillers' records')
    (hawaits : Awaits layout course.usage.log.room course.most course.usage.appender.next
      (some ⟨rest, outcome⟩) fillers' records') :
    (course.step .store).Kept layout capacity fillers' records' := by
  have hout := h.held (by simp [hunder])
  have hroom : (course.usage.log.store first).room = course.usage.log.room := by
    simp only [Log.room, layout_store, capacity_store]
  simp only [step, Course.store, hunder]
  refine ⟨husage, ?_, fun _ => ?_, ?_⟩
  · rw [taken_store]
    exact h.appender
  · rw [taken_store]
    exact hout
  · rw [hroom]
    exact hawaits

/-- An append with no store left to make ends. If it has committed, its session has one record
more. -/
theorem Kept.ended {outcome : Except Problem Appender}
    (hunder : course.underway = some ⟨[], outcome⟩) : ∃ fillers' records',
      (course.step .store).Kept layout capacity fillers' records' := by
  have hunderway := h.underway
  obtain ⟨count, rest, hcounts, happender⟩ := h.appender (h.held (by simp [hunder]))
  rw [hunder, happender] at hunderway
  generalize hplan : some (⟨[], outcome⟩ : Plan) = plan at hunderway
  cases hunderway with
  | resting => cases hplan
  | appending phase hroom hworks =>
      obtain ⟨hrest, rfl⟩ := Plan.mk.inj (Option.some.inj hplan)
      obtain rfl := Phase.rest_nil hrest.symm
      have husage := h.usage
      simp only [Phase.fillers, Phase.records, Layout.appenderAt,
        ← Sessions.most_commit hcounts] at husage
      simp only [step, Course.store, hunder]
      exact ⟨_, _, { husage with }, fun _ => ⟨count + 1, rest, by rw [hcounts]; rfl, rfl⟩,
        by simp, .resting⟩
  | breaking stores problem hbody =>
      obtain ⟨-, rfl⟩ := Plan.mk.inj (Option.some.inj hplan)
      simp only [step, Course.store, hunder]
      exact ⟨_, _, h.usage, h.appender, by simp, .resting⟩

theorem Kept.store : ∃ fillers' records',
    (course.step .store).Kept layout capacity fillers' records' := by
  rcases hunder : course.underway with _ | ⟨_ | ⟨first, stores⟩, outcome⟩
  · simp only [step, Course.store, hunder]
    exact ⟨_, _, h⟩
  · exact h.ended hunder
  · have hunderway := h.underway
    obtain ⟨count, rest, hcounts, happender⟩ := h.appender (h.held (by simp [hunder]))
    have hcount : count ≤ course.most := Sessions.le_most hcounts
    have hcurrent : course.usage.appender.next = count := congrArg Appender.next happender
    obtain rfl := h.usage.layout_eq
    rw [hunder, hcurrent] at hunderway
    -- The stores left are no constructor term in `Awaits`, so the plan is split by its equation.
    generalize hplan : some (⟨first :: stores, outcome⟩ : Plan) = plan at hunderway
    cases hunderway with
    | resting => cases hplan
    | appending phase hroom hworks =>
        obtain ⟨hrest, rfl⟩ := Plan.mk.inj (Option.some.inj hplan)
        obtain ⟨next, hnext, hworks', hmore, hsound, hframed⟩ :=
          Phase.store h.usage.sound h.usage.framed hcount hroom hworks hrest.symm
        have hbounds := next.bounds count
        have hfits := h.usage.fits
        have husage := h.usage.withLog (course.usage.log.store first) (layout_store _ _)
          ((capacity_store _ _).trans h.usage.capacity_eq) hsound hframed (by omega) (by omega)
          (by omega) course.usage.appender
        refine ⟨_, _, h.stored hunder husage ?_⟩
        rw [hcurrent, ← hnext]
        exact .appending next hroom hworks'
    | breaking stores problem hbody =>
        obtain ⟨rfl, rfl⟩ := Plan.mk.inj (Option.some.inj hplan)
        obtain ⟨word, value, hword, rfl⟩ := hbody first List.mem_cons_self
        have husage := h.usage.withLog
          (course.usage.log.setWord (course.usage.log.layout.bodyAt count + word * 8) value)
          rfl h.usage.capacity_eq (h.usage.sound.setWord _ _)
          (h.usage.framed.setBody hword value) h.usage.order h.usage.fits (Nat.le_refl _)
          course.usage.appender
        refine ⟨_, _, h.stored hunder husage ?_⟩
        rw [hcurrent]
        exact .breaking stores problem fun store hstore =>
          hbody store (List.mem_cons_of_mem _ hstore)

theorem Kept.step (step : Step) : ∃ fillers' records',
    (course.step step).Kept layout capacity fillers' records' := by
  cases step with
  | call call => exact h.call call
  | plan fill => exact ⟨_, _, h.plan fill⟩
  | store => exact h.store

theorem Kept.run (steps : List Step) : ∃ fillers' records',
    (course.run steps).Kept layout capacity fillers' records' := by
  unfold Course.run
  induction steps generalizing course fillers records with
  | nil => exact ⟨_, _, h⟩
  | cons first rest ih =>
      obtain ⟨fillers', records', hfirst⟩ := h.step first
      exact ih hfirst

end Kept

theorem begin_kept {storage after : Storage} {directory name : String} {stages bytes : Nat}
    {layout : Layout} {log : Log} (hlayout : Layout.ofStages stages = .ok layout)
    (hcreate : Log.create storage directory name layout bytes = (after, .ok log)) :
    (begin log).Kept layout log.capacity 0 0 :=
  kept_of_sessions (Sessions.begin_kept hlayout hcreate)

end Course

end GatedPipeline.Log
