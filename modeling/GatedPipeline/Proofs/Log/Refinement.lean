import Mathlib.Data.List.Forall2
import GatedPipeline.Proofs.Log.Ledger

/-!
The log in use refines the list of records: every operation takes both from corresponding states
to corresponding states and answers the same, so two runs over the same operations cannot be told
apart by their answers.
-/

namespace GatedPipeline

/-! ### The fill of an append of given words -/

namespace Log

private theorem written_stamps {width : Nat} (hwidth : width < wordLimit) (times : List Word)
    (slot index : Nat) (hfit : slot + times.length + 1 ≤ width) :
    Edit.written width ((times.zipIdx slot).map fun pair => .stamp pair.2 pair.1) index =
      if slot + 1 ≤ index then times[index - (slot + 1)]? else none := by
  induction times generalizing slot with
  | nil => simp [Edit.written]
  | cons first rest ih =>
      simp only [List.length_cons] at hfit
      have htarget := Edit.target_stamp width slot (by omega) hwidth first
      simp only [List.zipIdx_cons, List.map_cons, Edit.written, ih (slot + 1) (by omega),
        Edit.writes, htarget]
      by_cases hat : index = slot + 1
      · subst hat
        have hbehind : ¬ slot + 1 + 1 ≤ slot + 1 := by omega
        rw [if_neg hbehind]
        simp
      · by_cases hbehind : slot + 1 < index
        · have hdepth : index - (slot + 1) = index - (slot + 2) + 1 := by omega
          simp [hdepth, Ne.symm hat, show slot + 2 ≤ index by omega,
            show slot + 1 ≤ index by omega]
        · simp [Ne.symm hat, show ¬ slot + 2 ≤ index by omega, show ¬ slot + 1 ≤ index by omega]

/-- The edits of an append write the given words and no others. -/
theorem written_editsOf {width : Nat} (hwidth : width < wordLimit) (words : List Word)
    (hfit : words.length ≤ width) (index : Nat) :
    Edit.written width (editsOf words) index = words[index]? := by
  cases words with
  | nil => simp [editsOf, Edit.written]
  | cons first times =>
      simp only [List.length_cons] at hfit
      have htarget := Edit.target_remaining width (by omega) first.signed
      rw [Word.ofSigned_signed] at htarget
      simp only [editsOf, Edit.written, Edit.writes, htarget,
        written_stamps hwidth times 0 index (by omega)]
      cases index with
      | zero => simp
      | succ index => simp

theorem editsOf_works {width : Nat} (hwidth : width < wordLimit) (words : List Word)
    (hfit : words.length ≤ width) : ∀ edit ∈ editsOf words, edit.Works width := by
  cases words with
  | nil => simp [editsOf]
  | cons first times =>
      simp only [List.length_cons] at hfit
      intro edit hedit
      simp only [editsOf, List.mem_cons, List.mem_map] at hedit
      rcases hedit with rfl | ⟨pair, hpair, rfl⟩
      · exact ⟨_, Edit.target_remaining width (by omega) _⟩
      · have hslot := List.snd_lt_of_mem_zipIdx hpair
        exact ⟨_, Edit.target_stamp width _ (by omega) hwidth _⟩

/-! ### Corresponding states -/

theorem forall₂_set {α β : Type} {relation : α → β → Prop} {first : List α}
    {second : List β} (h : List.Forall₂ relation first second) (index : Nat) {one : α} {other : β}
    (hat : relation one other) :
    List.Forall₂ relation (first.set index one) (second.set index other) := by
  induction h generalizing index with
  | nil => exact .nil
  | cons hfirst hrest ih =>
      cases index with
      | zero => exact .cons hat hrest
      | succ index => exact .cons hfirst (ih index)

theorem forall₂_lookup {α β : Type} {relation : α → β → Prop} {first : List α}
    {second : List β} (h : List.Forall₂ relation first second) (index : Nat) :
    (first[index]? = none ∧ second[index]? = none) ∨
      ∃ one other, first[index]? = some one ∧ second[index]? = some other ∧ relation one other := by
  induction h generalizing index with
  | nil => exact .inl ⟨rfl, rfl⟩
  | cons hfirst hrest ih =>
      cases index with
      | zero => exact .inr ⟨_, _, rfl, rfl, hfirst⟩
      | succ index => exact ih index

/-- The log in use and the list stand at the same point. -/
structure Usage.Follows (usage : Usage) (ledger : Ledger) : Prop where
  holds : usage.log.Holds ledger.records.length (Ledger.wordAt ledger.records)
  width : usage.log.layout.words = ledger.width
  room : usage.log.room = ledger.room
  wide : ∀ record ∈ ledger.records, record.length = ledger.width
  appender : usage.appender = usage.log.layout.appenderAt ledger.records.length
  cursors : List.Forall₂ (fun tailer index =>
    tailer.Stands usage.log.layout index ∧ index ≤ ledger.records.length)
    usage.tailers ledger.cursors
  views : usage.views = ledger.views.map usage.log.layout.viewAt
  shown : ∀ index ∈ ledger.views, index < ledger.records.length

namespace Usage

variable {usage : Usage} {ledger : Ledger}

theorem Follows.record (h : usage.Follows ledger) {index : Nat}
    (hindex : index < ledger.records.length) :
    (usage.log.record (usage.log.layout.viewAt index)).words = ledger.records[index] := by
  have hwide := h.wide _ (List.getElem_mem hindex)
  rw [record_viewAt h.holds, h.width]
  apply List.ext_getElem (by simp [hwide])
  intro word _ hword
  simp [Ledger.wordAt, List.getD_eq_getElem?_getD, List.getElem?_eq_getElem hindex,
    List.getElem?_eq_getElem hword]

/-- The log with one more record and the list with one more record. -/
theorem Follows.push (h : usage.Follows ledger) {fill : List Edit} (record : List Word)
    (hworks : ∀ edit ∈ fill, edit.Works ledger.width)
    (hroom : ledger.records.length < ledger.room) (hlength : record.length = ledger.width)
    (hrecord : ∀ word, word < ledger.width →
      record.getD word 0 = (Edit.written ledger.width fill word).getD 0) :
    ∃ after next, usage.log.appendWith usage.appender fill =
        (after, next, .ok ledger.records.length) ∧ after.layout = usage.log.layout ∧
      Follows { usage with log := after, appender := next }
        { ledger with records := ledger.records ++ [record] } := by
  rw [← h.width] at hworks
  obtain ⟨after, happend, hlayout, hcapacity, hholds⟩ := appendWith_room h.holds hworks
    (by rwa [h.room])
  have hlonger : (ledger.records ++ [record]).length = ledger.records.length + 1 := by simp
  refine ⟨after, _, by rw [h.appender]; exact happend, hlayout, ?_⟩
  constructor
  case holds =>
    rw [hlonger]
    apply hholds.congr
    intro index word hword
    rw [Ledger.wordAt_append, filledWith]
    by_cases hlast : index = ledger.records.length
    · rw [if_pos hlast, if_pos hlast, hlast, Ledger.wordAt_end, h.width,
        hrecord word (by rwa [hlayout, h.width] at hword)]
    · rw [if_neg hlast, if_neg hlast]
  case width =>
    rw [hlayout]
    exact h.width
  case room =>
    simp only [Log.room, hlayout, hcapacity] at *
    exact h.room
  case wide =>
    intro other hother
    rcases List.mem_append.mp hother with hold | hnew
    · exact h.wide other hold
    · rw [List.mem_singleton.mp hnew]
      exact hlength
  case appender => simp only [hlonger, hlayout]
  case cursors =>
    rw [hlayout]
    exact h.cursors.imp fun tailer index hat => ⟨hat.1, by simp only [hlonger]; omega⟩
  case views =>
    rw [hlayout]
    exact h.views
  case shown =>
    intro index hindex
    have hshown := h.shown index hindex
    simp only [hlonger]
    omega

/-! ### One operation -/

structure Agrees (one : Usage × Answer) (other : Ledger × Answer) : Prop where
  answer : one.2 = other.2
  follows : one.1.Follows other.1

private theorem Follows.narrow (h : usage.Follows ledger) : ledger.width < wordLimit :=
  h.width ▸ h.holds.sound.narrow

private theorem Follows.full (h : usage.Follows ledger) (fill : List Edit)
    (hroom : ledger.room ≤ ledger.records.length) : ∃ failure,
      usage.log.appendWith usage.appender fill =
        (usage.log, usage.appender, .error (.of failure)) := by
  rw [h.appender]
  exact ⟨_, appendWith_full h.holds fill (by rwa [h.room])⟩

theorem Follows.append (h : usage.Follows ledger) (words : List Word) :
    Agrees (usage.append words) (ledger.append words) := by
  simp only [Usage.append, Ledger.append, Log.append, h.width]
  by_cases hwide : ledger.width < words.length
  · simp only [hwide, if_true, true_or]
    exact ⟨rfl, h⟩
  · by_cases hroom : ledger.room ≤ ledger.records.length
    · obtain ⟨failure, hfull⟩ := h.full (editsOf words) hroom
      simp only [hwide, hroom, if_false, if_true, or_true, hfull]
      exact ⟨rfl, h⟩
    · obtain ⟨after, next, happend, -, hfollows⟩ := h.push
        (words ++ List.replicate (ledger.width - words.length) 0)
        (editsOf_works h.narrow words (by omega)) (by omega) (by simp; omega)
        (fun word hword => by
          rw [written_editsOf h.narrow words (by omega), List.getD_eq_getElem?_getD,
            List.getElem?_append]
          by_cases hgiven : word < words.length
          · rw [if_pos hgiven]
          · rw [if_neg hgiven, List.getElem?_replicate,
              List.getElem?_eq_none (Nat.not_lt.mp hgiven), if_pos (by omega)]
            rfl)
      simp only [hwide, hroom, if_false, or_self, happend]
      exact ⟨rfl, hfollows⟩

theorem Follows.appendWith (h : usage.Follows ledger) (fill : List Edit)
    (hworks : ∀ edit ∈ fill, edit.Works ledger.width) :
    Agrees (usage.appendWith fill) (ledger.appendWith fill) := by
  simp only [Usage.appendWith, Ledger.appendWith]
  have hslot := slot_eq h.holds.sound h.holds.fits
  rw [← h.appender, h.room] at hslot
  by_cases hroom : ledger.room ≤ ledger.records.length
  · obtain ⟨failure, hfull⟩ := h.full fill hroom
    simp only [hroom, if_true, hfull]
    exact ⟨rfl, h⟩
  · obtain ⟨after, next, happend, hlayout, hfollows⟩ := h.push
      (Ledger.filled ledger.width fill) hworks (by omega) (by simp [Ledger.filled])
      (fun word hword => by simp [Ledger.filled, List.getD_eq_getElem?_getD, hword])
    rw [if_pos (by omega)] at hslot
    simp only [hroom, if_false, happend, hslot]
    refine ⟨rfl, { hfollows with views := ?_, shown := ?_ }⟩
    · simp only [hlayout, h.views, List.map_append, List.map_cons, List.map_nil]
      rfl
    · intro index hindex
      rcases List.mem_append.mp hindex with hold | hnew
      · exact hfollows.shown index hold
      · simp only [List.mem_singleton] at hnew
        simp [hnew]

private theorem Follows.setCursor (h : usage.Follows ledger) (cursor : Nat) {tailer : Tailer}
    {index : Nat} (hstands : tailer.Stands usage.log.layout index)
    (hindex : index ≤ ledger.records.length) :
    Follows { usage with tailers := usage.tailers.set cursor tailer }
      { ledger with cursors := ledger.cursors.set cursor index } :=
  { h with cursors := forall₂_set h.cursors cursor ⟨hstands, hindex⟩ }

private theorem Follows.pushView (h : usage.Follows ledger) {index : Nat}
    (hindex : index < ledger.records.length) :
    Follows { usage with views := usage.views ++ [usage.log.layout.viewAt index] }
      { ledger with views := ledger.views ++ [index] } :=
  { h with
    views := by simp [h.views]
    shown := by
      intro other hother
      rcases List.mem_append.mp hother with hold | hnew
      · exact h.shown other hold
      · rw [List.mem_singleton.mp hnew]
        exact hindex }

theorem Follows.tail (h : usage.Follows ledger) : Agrees (usage.act .tail) (ledger.act .tail) :=
  ⟨rfl, { h with
    cursors := List.rel_append h.cursors (.cons ⟨Tailer.start_stands _, Nat.zero_le _⟩ .nil) }⟩

theorem Follows.next (h : usage.Follows ledger) (cursor : Nat) :
    Agrees (usage.next cursor) (ledger.next cursor) := by
  simp only [Usage.next, Ledger.next]
  rcases forall₂_lookup h.cursors cursor with
    ⟨htailer, hcursor⟩ | ⟨tailer, index, htailer, hcursor, hstands, hindex⟩
  · simp only [htailer, hcursor]
    exact ⟨rfl, h⟩
  · have hread := Tailer.read_stands h.holds.sound h.holds.framed h.holds.fits hindex hstands
    by_cases hmore : index < ledger.records.length
    · rw [if_pos hmore] at hread
      simp only [htailer, hcursor, hread, List.getElem?_eq_getElem hmore]
      have hwords : (usage.log.record (usage.log.layout.entryAt index).view).words =
          ledger.records[index] := h.record hmore
      have hmoved := h.setCursor cursor (Tailer.end_stands _ (index + 1)) hmore
      exact ⟨by rw [hwords]; rfl, hmoved.pushView hmore⟩
    · rw [if_neg hmore] at hread
      simp only [htailer, hcursor, hread, List.getElem?_eq_none (Nat.not_lt.mp hmore)]
      have hsame : usage.tailers.set cursor tailer = usage.tailers := by
        obtain ⟨hlt, rfl⟩ := List.getElem?_eq_some_iff.mp htailer
        exact List.set_getElem_self hlt
      rw [hsame]
      exact ⟨rfl, h⟩

theorem Follows.seek (h : usage.Follows ledger) (cursor target : Nat) :
    Agrees (usage.seek cursor target) (ledger.seek cursor target) := by
  simp only [Usage.seek, Ledger.seek]
  rcases forall₂_lookup h.cursors cursor with
    ⟨htailer, hcursor⟩ | ⟨tailer, index, htailer, hcursor, hstands, hindex⟩
  · simp only [htailer, hcursor]
    exact ⟨rfl, h⟩
  · obtain ⟨final, hfinal, hseek⟩ := Tailer.seek_stands h.holds.sound h.holds.framed h.holds.fits
      target hindex hstands
    have hmoved := h.setCursor cursor hfinal (Nat.min_le_right _ _)
    simp only [htailer, hcursor, hseek]
    by_cases hthere : target ≤ ledger.records.length
    · simp only [hthere, if_true]
      exact ⟨rfl, hmoved⟩
    · simp only [hthere, if_false]
      exact ⟨rfl, hmoved⟩

theorem Follows.view (h : usage.Follows ledger) (view : Nat) :
    usage.views[view]? = ledger.views[view]?.map usage.log.layout.viewAt := by
  rw [h.views, List.getElem?_map]

theorem Follows.look (h : usage.Follows ledger) (view : Nat) :
    usage.look view = ledger.look view := by
  simp only [Usage.look, Ledger.look, h.view]
  cases hview : ledger.views[view]? with
  | none => rfl
  | some index =>
      have hindex := h.shown index (List.mem_of_getElem? hview)
      simp only [Option.map_some, h.record hindex, List.getD_eq_getElem?_getD,
        List.getElem?_eq_getElem hindex, Option.getD_some]

theorem Follows.edit (h : usage.Follows ledger) (view : Nat) (change : Edit) :
    Agrees (usage.edit view change) (ledger.edit view change) := by
  simp only [Usage.edit, Ledger.edit, h.view]
  cases hview : ledger.views[view]? with
  | none => exact ⟨rfl, h⟩
  | some index =>
      have hindex := h.shown index (List.mem_of_getElem? hview)
      have hwide := h.wide _ (List.getElem_mem hindex)
      simp only [Option.map_some]
      cases htarget : change.target ledger.width with
      | error fault =>
          have hedit : usage.log.edit (usage.log.layout.viewAt index) change =
              (usage.log, .error fault) := by
            rw [← h.width] at htarget
            simp only [Log.edit, Layout.viewAt, htarget]
          simp only [hedit]
          exact ⟨rfl, h⟩
      | ok target =>
          obtain ⟨word, value⟩ := target
          have hword : word < ledger.width := Edit.target_lt htarget
          rw [← h.width] at htarget
          obtain ⟨after, hedit, hafter, hholds⟩ := edit_works h.holds index htarget
          simp only [hedit]
          refine ⟨rfl, ?_⟩
          subst hafter
          have hlength : (ledger.records.modify index (·.set word value)).length =
              ledger.records.length := List.length_modify ..
          refine ⟨?_, h.width, h.room, ?_, ?_, ?_, h.views, ?_⟩
          · simp only [hlength]
            apply hholds.congr
            intro other otherWord _
            rw [Ledger.wordAt_modify hindex]
            simp [List.getD_eq_getElem?_getD, List.getElem?_eq_getElem hindex, hwide, hword]
          · intro record hrecord
            obtain ⟨other, hother, rfl⟩ := List.mem_iff_getElem.mp hrecord
            rw [List.getElem_modify]
            have hold := h.wide _ (List.getElem_mem (hlength ▸ hother))
            split
            · simpa using hold
            · exact hold
          · simp only [hlength]
            exact h.appender
          · simp only [hlength]
            exact h.cursors
          · simp only [hlength]
            exact h.shown

theorem Follows.pretouch (h : usage.Follows ledger) : Agrees usage.pretouch (ledger, .done) := by
  obtain ⟨log, pages, hpretouch, hlayout, hcapacity, hholds⟩ := h.holds.pretouch
  have hroom : log.room = usage.log.room := by simp only [Log.room, hlayout, hcapacity]
  rw [Usage.pretouch, hpretouch]
  change Agrees ({ usage with log := log }, .done) (ledger, .done)
  refine ⟨rfl, ⟨hholds, ?_, hroom.trans h.room, h.wide, ?_, ?_, ?_, h.shown⟩⟩
  · exact (congrArg Layout.words hlayout).trans h.width
  · rw [hlayout]
    exact h.appender
  · simp only [hlayout]
    exact h.cursors
  · rw [hlayout]
    exact h.views

theorem Follows.act (h : usage.Follows ledger) (act : Act) (hworks : act.Works ledger.width) :
    Agrees (usage.act act) (ledger.act act) := by
  cases act with
  | append words => exact h.append words
  | appendWith fill => exact h.appendWith fill hworks
  | tail => exact h.tail
  | next cursor => exact h.next cursor
  | seek cursor index => exact h.seek cursor index
  | edit view change => exact h.edit view change
  | look view => exact ⟨h.look view, h⟩
  | count => exact ⟨congrArg Answer.count h.holds.appended, h⟩
  | pretouch => exact h.pretouch

private theorem width_act (ledger : Ledger) (act : Act) :
    (ledger.act act).1.width = ledger.width := by
  cases act <;> simp only [Ledger.act]
  case append words => rw [Ledger.append]; split <;> rfl
  case appendWith fill => rw [Ledger.appendWith]; split <;> rfl
  case next cursor =>
    rw [Ledger.next]
    split
    · rfl
    · split <;> rfl
  case seek cursor index => rw [Ledger.seek]; split <;> rfl
  case edit view change =>
    rw [Ledger.edit]
    split
    · rfl
    · split <;> rfl

theorem Follows.run (h : usage.Follows ledger) (acts : List Act)
    (hworks : ∀ act ∈ acts, act.Works ledger.width) :
    (usage.run acts).2 = (ledger.run acts).2 ∧ (usage.run acts).1.Follows (ledger.run acts).1 := by
  induction acts generalizing usage ledger with
  | nil => exact ⟨rfl, h⟩
  | cons first rest ih =>
      have hfirst := h.act first (hworks first (by simp))
      have hrest := ih hfirst.follows fun act hact => by
        rw [width_act]
        exact hworks act (by simp [hact])
      simp only [Usage.run, Ledger.run]
      exact ⟨by rw [hfirst.answer, hrest.1], hrest.2⟩

end Usage

theorem follows_fresh {storage after : Storage} {directory name : String} {stages bytes : Nat}
    {layout : Layout} {log held : Log} {appender : Appender}
    (hlayout : Layout.ofStages stages = .ok layout)
    (hcreate : Log.create storage directory name layout bytes = (after, .ok log))
    (htake : log.takeAppender = .ok (held, appender)) :
    Usage.Follows ⟨held, appender, [], []⟩ ⟨layout.words, held.room, [], [], []⟩ := by
  obtain ⟨hholds, hlogLayout, htaken⟩ := create_holds (Layout.ofStages_ok hlayout).1 hcreate
  simp only [takeAppender, htaken] at htake
  cases htake
  exact ⟨hholds.taken true, congrArg Layout.words hlogLayout, rfl, by simp, rfl, .nil, rfl,
    by simp⟩

/-- Whatever is done with a fresh log, it answers as the list of records does, and it counts as many
records. -/
theorem log_refines_ledger {storage after : Storage} {directory name : String}
    {stages bytes : Nat} {layout : Layout} {log held : Log} {appender : Appender}
    (hlayout : Layout.ofStages stages = .ok layout)
    (hcreate : Log.create storage directory name layout bytes = (after, .ok log))
    (htake : log.takeAppender = .ok (held, appender)) (acts : List Act)
    (hworks : ∀ act ∈ acts, act.Works layout.words) :
    (Usage.run ⟨held, appender, [], []⟩ acts).2 =
        (Ledger.run ⟨layout.words, held.room, [], [], []⟩ acts).2 ∧
      (Usage.run ⟨held, appender, [], []⟩ acts).1.log.appended =
        (Ledger.run ⟨layout.words, held.room, [], [], []⟩ acts).1.records.length := by
  have hrun := (follows_fresh hlayout hcreate htake).run acts hworks
  exact ⟨hrun.1, hrun.2.holds.appended⟩

theorem log_refines_ledger_header_words :
    (Usage.run ⟨⟨"main", "/main.log", 4096, ⟨1⟩, .zeros, 0, 0, 0, true⟩, ⟨0, 0⟩, [], []⟩
      [.tail, .next 0, .append [0x8000000000000018, 7], .append [1, 2, 3, 4],
        .appendWith [.stamp 1 0x4000000000000008, .remaining (-1)], .next 0,
        .edit 1 (.stamp 0 0x8000000000000010), .edit 0 (.stamp 0 9), .pretouch, .next 0, .next 0,
        .seek 0 0, .look 1, .next 0, .count]).2 =
      [.done, .nothing, .appended 0, .refused, .appended 1,
        .record 0 [0x8000000000000018, 7, 0], .done, .done, .done,
        .record 1 [0xffffffffffffffff, 9, 0x4000000000000008], .nothing, .done,
        .words [0x8000000000000018, 0x8000000000000010, 0],
        .record 0 [0x8000000000000018, 0x8000000000000010, 0], .count 2] := by
  refine (@log_refines_ledger .empty _ "/" "main" 1 100 ⟨1⟩ _ _ _ rfl (Prod.ext rfl rfl) rfl _
    (by decide)).1.trans ?_
  decide

end Log

end GatedPipeline
