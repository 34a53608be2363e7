import GatedPipeline.Proofs.Log.Alike

/-!
Appends that fail. An append is refused before its first store, and then nothing is changed. A fill
that breaks has stored words, but only in the body of its slot, where no header and no filler lies.
So a cursor finds what it would have found without the append, now and later, and the slot is the
one that the next append takes.
-/

namespace GatedPipeline.Log

/-- Stores to one body leave all words outside of it. -/
theorem word_storeAll_outside {log : Log} {index : Nat} {stores : List Store}
    (hbody : ∀ store ∈ stores, ∃ word value, word < log.layout.words ∧
      store = .word (log.layout.bodyAt index + word * 8) value) {position : Nat}
    (haligned : position % 8 = 0) (houtside : position < log.layout.bodyAt index ∨
      log.layout.endAfter (index + 1) ≤ position) :
    (log.storeAll stores).word position = log.word position := by
  have hbounds := (log.layout.entry_bounds index).2.2
  have hbytes : log.layout.bytes = log.layout.words * 8 := rfl
  have hstart := log.layout.bodyAt_aligned index
  refine word_storeAll_elsewhere fun other value hstore => ?_
  obtain ⟨word, stored, hword, hat⟩ := hbody _ hstore
  cases hat
  omega

/-- How an append of record `count` fails. It is refused for want of room and changes nothing, or
its fill breaks after it has stored words of the record's own body. -/
inductive Fails (log : Log) (count : Nat) (fill : List Edit) :
    Log × Appender × Except Problem Nat → Prop
  | full (failure : Failure) (hfull : log.room ≤ count) :
      Fails log count fill (log, log.layout.appenderAt count, .error (.failed failure))
  | broken (stores : List Store) (fault : Fault) (hroom : count < log.room)
      (hbody : ∀ store ∈ stores, ∃ word value, word < log.layout.words ∧
        store = .word (log.layout.bodyAt count + word * 8) value)
      (hfault : ∃ edit ∈ fill, edit.target log.layout.words = .error fault) :
      Fails log count fill
        (log.storeAll stores, log.layout.appenderAt count, .error (.broken fault))

theorem appendWith_fails {log : Log} {count : Nat} {fill : List Edit} (hsound : log.Sound)
    (hroom : count ≤ log.room)
    (hfails : ∀ index, (log.appendWith (log.layout.appenderAt count) fill).2.2 ≠ .ok index) :
    log.Fails count fill (log.appendWith (log.layout.appenderAt count) fill) := by
  have hbody := fillStores_body (log.layout.bodyAt count) log.layout.words fill
  have hplan := plan_eq hsound hroom fill
  unfold Log.appendWith at hfails ⊢
  rw [hplan] at hfails ⊢
  split_ifs at hfails ⊢ with hfits
  · rcases hstores : fillStores (log.layout.bodyAt count) log.layout.words fill with
      ⟨stores, fault | ⟨⟩⟩
    · rw [hstores] at hbody
      exact .broken stores fault hfits hbody (fillStores_error (congrArg Prod.snd hstores))
    · rw [hstores] at hfails
      exact absurd rfl (hfails _)
  · exact .full _ (Nat.not_lt.mp hfits)

namespace Usage

inductive Fails (usage : Usage) (count : Nat) : Act → Usage × Answer → Prop
  | wide (given : List Word) (hwide : usage.log.layout.words < given.length) :
      Fails usage count (.append given) (usage, .refused)
  | full (act : Act) (hfull : usage.log.room ≤ count) : Fails usage count act (usage, .refused)
  | broken (fill : List Edit) (stores : List Store) (fault : Fault) (hroom : count < usage.log.room)
      (hbody : ∀ store ∈ stores, ∃ word value, word < usage.log.layout.words ∧
        store = .word (usage.log.layout.bodyAt count + word * 8) value)
      (hfault : ∃ edit ∈ fill, edit.target usage.log.layout.words = .error fault) :
      Fails usage count (.appendWith fill)
        ({ usage with log := usage.log.storeAll stores }, .broken fault)

section Amid

variable {usage : Usage} {layout : Layout} {capacity fillers records count : Nat}
  (h : usage.Amid layout capacity fillers records) (hcount : count ≤ usage.log.room)
  (happender : usage.appender = usage.log.layout.appenderAt count)

include h hcount happender

/-- The words that are given never break an append. -/
theorem Amid.append_fails {given : List Word}
    (hfails : ∀ index, (usage.append given).2 ≠ .appended index) :
    usage.Fails count (.append given) (usage.append given) := by
  have hnone : ∀ index, (usage.log.append usage.appender given).2.2 ≠ .ok index :=
    fun index hok => hfails index (by rw [append_answer, hok])
  unfold Usage.append Log.append at *
  split_ifs at hnone ⊢ with hwide
  · exact .wide given hwide
  · have hworks := editsOf_works h.sound.narrow given (Nat.not_lt.mp hwide)
    rw [happender] at hnone ⊢
    have hfailed := Log.appendWith_fails h.sound hcount hnone
    revert hfailed
    generalize usage.log.appendWith _ _ = ending
    rintro (⟨failure, hfull⟩ | ⟨stores, fault, hroom, hbody, edit, hedit, hfault⟩)
    · rw [← happender]
      exact .full _ hfull
    · obtain ⟨target, htarget⟩ := hworks edit hedit
      rw [hfault] at htarget
      cases htarget

theorem Amid.appendWith_fails {fill : List Edit}
    (hfails : ∀ index, (usage.appendWith fill).2 ≠ .appended index) :
    usage.Fails count (.appendWith fill) (usage.appendWith fill) := by
  have hnone : ∀ index, (usage.log.appendWith usage.appender fill).2.2 ≠ .ok index :=
    fun index hok => hfails index (by rw [appendWith_answer, hok])
  unfold Usage.appendWith
  rw [happender] at hnone ⊢
  have hfailed := Log.appendWith_fails h.sound hcount hnone
  revert hfailed
  generalize usage.log.appendWith _ _ = ending
  rintro (⟨failure, hfull⟩ | ⟨stores, fault, hroom, hbody, hfault⟩)
  · rw [← happender]
    exact .full _ hfull
  · rw [← happender]
    exact .broken fill stores fault hroom hbody hfault

theorem Amid.act_fails {act : Act} (happends : act.appends)
    (hfails : ∀ index, (usage.act act).2 ≠ .appended index) :
    usage.Fails count act (usage.act act) := by
  cases act with
  | append given => exact h.append_fails hcount happender hfails
  | appendWith fill => exact h.appendWith_fails hcount happender hfails
  | _ => cases happends

end Amid

end Usage

namespace Course

/-- What an append that fails leaves of a course. One that is refused has too many words or finds no
room, and changes nothing. One whose fill breaks may have stored words of the body of its own slot
and have passed on a view of it. By `later` everything that comes afterwards shows what it would
have shown without the append, and by `next` the append that succeeds next gets the index and the
slot that this one would have had. -/
structure Unseen (course : Course) (act : Act) : Prop where
  fails : course.answer (.call (.use act)) = .refused ∨
    ∃ fault, course.answer (.call (.use act)) = .broken fault
  refused : course.answer (.call (.use act)) = .refused →
    course.step (.call (.use act)) = course ∧
      ((∃ given, act = .append given ∧ course.usage.log.layout.words < given.length) ∨
        course.usage.log.capacity <
          course.usage.log.layout.endAfter (course.usage.appender.next + 1))
  broken : ∀ fault, course.answer (.call (.use act)) = .broken fault → ∃ fill slot words,
    act = .appendWith fill ∧
      (∃ edit ∈ fill, edit.target course.usage.log.layout.words = .error fault) ∧
      course.usage.log.slot course.usage.appender = .ok slot ∧
      course.step (.call (.use act)) = { course with
        usage := { course.usage with
          log := { course.usage.log with words := words },
          views := course.usage.views ++ [⟨slot.body, course.usage.log.layout.words⟩] } } ∧
      (∀ index, words.get (course.usage.log.layout.headerAt index / 8) =
        course.usage.log.word (course.usage.log.layout.headerAt index)) ∧
      ∀ position, position % 8 = 0 → position < slot.body ∨ slot.stop ≤ position →
        words.get (position / 8) = course.usage.log.word position
  later : ∀ steps, (course.step (.call (.use act))).shows steps = course.shows steps
  next : ∀ steps again index,
    ((course.step (.call (.use act))).run steps).counts = course.counts →
    ((course.step (.call (.use act))).run steps).answer (.call (.use again)) = .appended index →
    index = course.usage.appender.next ∧ ∃ slot,
      course.usage.log.slot course.usage.appender = .ok slot ∧
      (((course.step (.call (.use act))).run steps).step (.call (.use again))).usage.appender =
        ⟨slot.stop, index + 1⟩ ∧
      (((course.step (.call (.use act))).run steps).step (.call (.use again))).usage.log.word
        slot.header = Header.recordWord course.usage.log.layout.bytes

section Kept

variable {course : Course} {layout : Layout} {capacity fillers records : Nat}
  (h : course.Kept layout capacity fillers records)

include h

/-- Only an append that is made through the appender, with none under way, can succeed. -/
theorem Kept.rests_of_appended {act : Act} {index : Nat}
    (hanswer : course.answer (.call (.use act)) = .appended index) :
    course.underway = none ∧ course.usage.log.appenderTaken := by
  have hreads : act.appends = false → (course.usage.act act).2 ≠ .appended index :=
    fun hreads => (h.usage.act hreads).2.2.2 index
  simp only [answer, bars, Call.ofAppender, Sessions.answer] at hanswer
  cases happends : act.appends with
  | false =>
      simp only [happends, Bool.and_false, Bool.false_eq_true, false_and, if_false] at hanswer
      exact absurd hanswer (hreads happends)
  | true =>
      constructor
      · by_contra hunder
        simp [happends, Option.isSome_iff_ne_none.mpr hunder] at hanswer
      · by_contra hout
        simp [happends, hout] at hanswer

/-- An append that succeeds takes the slot of the appender's next record. -/
theorem Kept.appended {act : Act} {index : Nat}
    (hanswer : course.answer (.call (.use act)) = .appended index) :
    course.toSessions.Appends layout act index ∧
      course.step (.call (.use act)) = ⟨course.toSessions.use act, none⟩ := by
  obtain ⟨hrests, hout⟩ := h.rests_of_appended hanswer
  obtain ⟨hstep, hsame⟩ := step_append hrests hout act
  rw [hsame] at hanswer
  exact ⟨(h.resting hrests).appends hout hanswer, hstep⟩

section Failed

variable (hrests : course.underway = none) (hout : course.usage.log.appenderTaken) {act : Act}
  (happends : act.appends)
  (hfails : ∀ index, course.answer (.call (.use act)) ≠ .appended index)

include hrests hout

/-- The appender that is out stands where its own records end. -/
theorem Kept.holder : ∃ count rest, course.counts = count :: rest ∧
    course.usage.appender = layout.appenderAt count ∧ count ≤ course.usage.log.room := by
  have hsessions := h.resting hrests
  obtain ⟨count, rest, hcounts, hcount, happender⟩ := hsessions.current hout
  exact ⟨count, rest, hcounts, happender, Nat.le_trans hcount hsessions.usage.log.fits⟩

/-- The next append that succeeds takes the slot that is still free. -/
theorem Kept.next_appended {steps : List Step} {again : Act} {index : Nat}
    (hcounts : ((course.step (.call (.use act))).run steps).counts = course.counts)
    (hanswer : ((course.step (.call (.use act))).run steps).answer (.call (.use again)) =
      .appended index) :
    index = course.usage.appender.next ∧ ∃ slot,
      course.usage.log.slot course.usage.appender = .ok slot ∧
      (((course.step (.call (.use act))).run steps).step (.call (.use again))).usage.appender =
        ⟨slot.stop, index + 1⟩ ∧
      (((course.step (.call (.use act))).run steps).step (.call (.use again))).usage.log.word
        slot.header = Header.recordWord course.usage.log.layout.bytes := by
  obtain ⟨count, rest, hbefore, happender, hcount⟩ := h.holder hrests hout
  obtain ⟨_, _, hstep⟩ := h.step (.call (.use act))
  obtain ⟨_, _, hrun⟩ := hstep.run steps
  obtain ⟨⟨⟨more, hafter⟩, -, hroom, hplaced, hheader⟩, hlast⟩ := hrun.appended hanswer
  rw [hlast]
  obtain rfl : count = index := by
    rw [hcounts, hbefore] at hafter
    exact (List.cons.inj hafter).1
  obtain rfl := h.usage.layout_eq
  have hsame : ((course.step (.call (.use act))).run steps).usage.log.room =
      course.usage.log.room := by
    simp only [Log.room, hrun.usage.layout_eq, hrun.usage.capacity_eq, h.usage.capacity_eq]
  have hslot := slot_eq h.usage.sound hcount
  rw [← happender, if_pos (hsame ▸ hroom)] at hslot
  exact ⟨by rw [happender]; rfl, _, hslot, hplaced, hheader⟩

include happends hfails

/-- The course after an append that fails. -/
theorem Kept.failed : ∃ count, course.usage.appender = layout.appenderAt count ∧
    count ≤ course.usage.log.room ∧
    ((course.answer (.call (.use act)) = .refused ∧ course.step (.call (.use act)) = course ∧
        ((∃ given, act = .append given ∧ layout.words < given.length) ∨
          course.usage.log.room ≤ count)) ∨
      ∃ fill stores fault, act = .appendWith fill ∧
        course.answer (.call (.use act)) = .broken fault ∧ count < course.usage.log.room ∧
        (∀ store ∈ stores, ∃ word value, word < layout.words ∧
          store = .word (layout.bodyAt count + word * 8) value) ∧
        (∃ edit ∈ fill, edit.target layout.words = .error fault) ∧
        course.step (.call (.use act)) = { course with
          usage := { course.usage with
            log := course.usage.log.storeAll stores,
            views := course.usage.views ++ [layout.viewAt count] } }) := by
  obtain ⟨count, rest, hcounts, happender, hcount⟩ := h.holder hrests hout
  obtain ⟨hstep, hsame⟩ := step_append hrests hout act
  obtain rfl := h.usage.layout_eq
  refine ⟨count, happender, hcount, ?_⟩
  rw [hsame] at hfails ⊢
  rw [hstep]
  have hfailed := h.usage.act_fails hcount happender happends hfails
  have hrefused : (⟨⟨course.usage, course.counts⟩, none⟩ : Course) = course := by
    rw [← hrests]
  unfold Sessions.use
  generalize course.usage.act act = result at hfailed
  cases hfailed with
  | wide given hwide => exact .inl ⟨rfl, hrefused, .inl ⟨given, rfl, hwide⟩⟩
  | full act hfull => exact .inl ⟨rfl, hrefused, .inr hfull⟩
  | broken fill stores fault hroom hbody hfault =>
      refine .inr ⟨fill, stores, fault, rfl, rfl, hroom, hbody, hfault, ?_⟩
      have hslot := slot_eq h.usage.sound hcount
      rw [← happender, if_pos hroom] at hslot
      simp only [Usage.lent, hslot, ← hrests]
      rfl

theorem Kept.failed_alike : course.Alike layout False (course.step (.call (.use act))) := by
  obtain ⟨count, -, -, ⟨-, hsame, -⟩ | ⟨fill, stores, fault, -, -, -, hbody, -, hstep⟩⟩ :=
    h.failed hrests hout happends hfails
  · rw [hsame]
    exact ⟨⟨⟨.refl _, rfl, h.usage.level, False.elim⟩, rfl⟩, rfl⟩
  · -- The view that was passed on makes the views differ from here on.
    obtain rfl := h.usage.layout_eq
    rw [hstep]
    exact ⟨⟨⟨.fill course.usage.log count hbody, rfl, h.usage.level, False.elim⟩, rfl⟩, rfl⟩

theorem Kept.unseen : course.Unseen act := by
  have halike := h.failed_alike hrests hout happends hfails
  obtain ⟨_, _, hstep⟩ := h.step (.call (.use act))
  obtain ⟨count, happender, hcount, hcases⟩ := h.failed hrests hout happends hfails
  obtain rfl := h.usage.layout_eq
  constructor
  case fails =>
    rcases hcases with ⟨hanswer, -⟩ | ⟨fill, stores, fault, -, hanswer, -⟩
    · exact .inl hanswer
    · exact .inr ⟨fault, hanswer⟩
  case refused =>
    intro hrefused
    rcases hcases with ⟨-, hsame, hwhy⟩ | ⟨fill, stores, fault, -, hanswer, -⟩
    · refine ⟨hsame, hwhy.imp_right fun hfull => ?_⟩
      have hiff := lt_room_iff h.usage.sound count
      simp only [happender, Layout.appenderAt]
      omega
    · rw [hrefused] at hanswer
      cases hanswer
  case broken =>
    intro fault hbroken
    rcases hcases with ⟨hanswer, -⟩ |
      ⟨fill, stores, other, hact, hanswer, hroom, hbody, hfault, hafter⟩
    · rw [hbroken] at hanswer
      cases hanswer
    · rw [hbroken] at hanswer
      cases hanswer
      have hslot := slot_eq h.usage.sound hcount
      rw [← happender, if_pos hroom] at hslot
      have hfilled : course.usage.log.Alike (course.usage.log.storeAll stores) :=
        .fill _ count hbody
      refine ⟨fill, _, (course.usage.log.storeAll stores).words, hact, hfault, hslot, ?_,
        hfilled.header, fun position haligned houtside =>
          word_storeAll_outside hbody haligned houtside⟩
      rw [hafter, ← hfilled.rest]
      rfl
  case later => exact fun steps => (halike.run h hstep steps).1
  case next =>
    exact fun steps again index hcounts hanswer =>
      h.next_appended hrests hout hcounts hanswer

end Failed

end Kept

/-- Over every course of a log, an append that fails is not seen by any cursor. -/
theorem run_unseen {storage after : Storage} {directory name : String} {stages bytes : Nat}
    {layout : Layout} {log : Log} (hlayout : Layout.ofStages stages = .ok layout)
    (hcreate : Log.create storage directory name layout bytes = (after, .ok log))
    (steps : List Step) (hrests : ((begin log).run steps).underway = none)
    (hout : ((begin log).run steps).usage.log.appenderTaken) {act : Act} (happends : act.appends)
    (hfails : ∀ index, ((begin log).run steps).answer (.call (.use act)) ≠ .appended index) :
    ((begin log).run steps).Unseen act := by
  obtain ⟨fillers, records, hkept⟩ := (begin_kept hlayout hcreate).run steps
  exact hkept.unseen hrests hout happends hfails

/-- The cursor has passed the filler in front of a second record before its header was stored. Then
a fill breaks, or too many words are given. -/
theorem run_unseen_parked :
    let course := (begin ⟨"main", "/main.log", 4096, ⟨1⟩, .zeros, 0, 0, 0, false⟩).run
      [.call .take, .call (.use (.append [1, 100])), .call (.use .tail), .plan [], .store,
        .call (.use (.next 0)), .call (.use (.next 0)), .store, .store, .store, .store]
    course.usage.tailers = [⟨120, 1⟩] ∧ course.counts = [2] ∧
      course.answer (.call (.use (.appendWith [.stamp 1 7, .stamp 5 1]))) =
        .broken (.indexOutOfBounds 3 6) ∧
      course.Unseen (.appendWith [.stamp 1 7, .stamp 5 1]) ∧
      course.answer (.call (.use (.append [1, 2, 3, 4]))) = .refused ∧
      course.Unseen (.append [1, 2, 3, 4]) := by
  intro course
  have hrests : course.underway = none := Option.isNone_iff_eq_none.mp (by decide)
  have hout : course.usage.log.appenderTaken := by decide
  have hbroken : course.answer (.call (.use (.appendWith [.stamp 1 7, .stamp 5 1]))) =
      .broken (.indexOutOfBounds 3 6) := by decide
  have hrefused : course.answer (.call (.use (.append [1, 2, 3, 4]))) = .refused := by decide
  have hunseen : ∀ act, act.appends →
      (∀ index, course.answer (.call (.use act)) ≠ .appended index) →
      course.Unseen act := fun act =>
    @run_unseen .empty _ "/" "main" 1 100 ⟨1⟩ _ rfl (Prod.ext rfl rfl) _ hrests hout act
  exact ⟨by decide, by decide, hbroken, hunseen _ rfl (by simp [hbroken]), hrefused,
    hunseen _ rfl (by simp [hrefused])⟩

end Course

end GatedPipeline.Log
