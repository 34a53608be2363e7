import GatedPipeline.Proofs.Log.Reading
import GatedPipeline.Proofs.Log.Writing
import GatedPipeline.Proofs.Storage.Tree

/-!
What a log holds between two operations: so many committed records, and for every record place the
words of its body. Appending adds a record in front of which nothing changes, an edit changes the
one word it names, and both leave the frame for the readers as it has to be.
-/

namespace GatedPipeline

namespace Layout

/-- The one appender of a log after it has committed so many records. -/
def appenderAt (layout : Layout) (count : Nat) : Appender := ⟨layout.endAfter count, count⟩

/-- The stores that commit record `count` once its body is filled. -/
def commitStores (layout : Layout) (count : Nat) : List Log.Store :=
  Log.paddingStores (layout.endAfter count) (layout.headerAt count) ++
    [.word (layout.headerAt count) (Log.Header.recordWord layout.bytes),
      .writePosition (layout.endAfter (count + 1)), .appended (count + 1)]

theorem mem_commitStores {layout : Layout} {count : Nat} {store : Log.Store}
    (h : store ∈ layout.commitStores count) :
    store = .word (layout.headerAt count) (Log.Header.recordWord layout.bytes) ∨
      (store = .word (layout.endAfter count)
          (Log.Header.paddingWord (layout.headerAt count - layout.endAfter count)) ∧
        (Place.filler count).Real layout) ∨
      store = .writePosition (layout.endAfter (count + 1)) ∨ store = .appended (count + 1) := by
  have hgap := (layout.entry_bounds count).1
  simp only [commitStores, Log.paddingStores, List.mem_append, List.mem_cons, List.not_mem_nil,
    or_false] at h
  rcases h with hpadding | rfl | rfl | rfl
  · split at hpadding
    · cases hpadding
    · have hreal : (Place.filler count).Real layout := by
        simp only [Place.Real]
        omega
      exact .inr (.inl ⟨List.mem_singleton.mp hpadding, hreal⟩)
  · exact .inl rfl
  · exact .inr (.inr (.inl rfl))
  · exact .inr (.inr (.inr rfl))

end Layout

namespace Log

section Plan

variable {log : Log} {count : Nat} (hsound : log.Sound) (hroom : count ≤ log.room)

include hsound hroom

/-- The walk from the end of an entry meets the header of the next record. -/
theorem headerAfter_end : headerAfter (log.layout.endAfter count) =
    .ok (log.layout.headerAt count) := by
  have hsmall := headerAt_small hsound hroom
  have hbounds := log.layout.entry_bounds count
  have hadd := log.layout.headerAt_add count
  have haligned := log.layout.bodyAt_aligned count
  have hend := (Layout.Place.filler count).position_aligned log.layout
  simp only [headerBytes, Layout.Place.position] at hadd hend
  have hround : (log.layout.endAfter count + 8 + 64 - 1) / 64 * 64 = log.layout.bodyAt count := by
    omega
  have hfirst : Checked.add (log.layout.endAfter count) headerBytes =
      .ok (log.layout.endAfter count + 8) :=
    Checked.add_ok (by simp only [headerBytes]; omega)
  have hboundary : Checked.roundUp (log.layout.endAfter count + 8) alignment =
      .ok (log.layout.bodyAt count) := by
    rw [← hround]
    exact Checked.mul_ok (by simp only [alignment]; omega)
  have hheader : Checked.sub (log.layout.bodyAt count) headerBytes =
      .ok (log.layout.headerAt count) := by
    rw [Checked.sub_ok (by simp only [headerBytes]; omega)]
    simp only [headerBytes]
    congr 1
    omega
  simp only [headerAfter, hfirst, hboundary, ok_bind]
  exact hheader

/-- Whether the next record has a slot is decided by the room of the log alone. -/
theorem slot_eq : log.slot (log.layout.appenderAt count) =
    if count < log.room then
      .ok ⟨log.layout.headerAt count, log.layout.bodyAt count, log.layout.endAfter (count + 1)⟩
    else .error (.of (.logFull log.name count log.layout.bytes (log.layout.bodyAt count)
      log.capacity)) := by
  have hsmall := headerAt_small hsound hroom
  have hadd := log.layout.headerAt_add count
  have hbytes := log.layout.bytes_eq
  have hfew := hsound.layout.few_stages
  have hsome := hsound.layout.some_stage
  have hbounds := log.layout.entry_bounds count
  have hindex := log.layout.le_headerAt count
  have hhead := (Layout.Place.header count).position_aligned log.layout
  have hend := (Layout.Place.filler count).position_aligned log.layout
  simp only [headerBytes, maxStages, Layout.Place.position] at hadd hfew hhead hend
  have hheader := headerAfter_end hsound hroom
  have hbody : Checked.add (log.layout.headerAt count) headerBytes =
      .ok (log.layout.bodyAt count) := by
    rw [Checked.add_ok (by simp only [headerBytes]; omega)]
    simp only [headerBytes, hadd]
  have hstop : Checked.add (log.layout.bodyAt count) log.layout.bytes =
      .ok (log.layout.endAfter (count + 1)) := by
    rw [Checked.add_ok (by omega), hbounds.2.2]
  have hnext : Checked.add count 1 = .ok (count + 1) := Checked.add_ok (by omega)
  -- no sum overflows either way: the end of the slot alone decides
  by_cases hfits : count < log.room
  · have hcapacity := (lt_room_iff hsound count).mp hfits
    have hlong : ¬ log.layout.words ≤ 2 := by simp only [Layout.words]; omega
    have haccess : log.access (log.layout.bodyAt count) log.layout.words = .ok () :=
      access_ok hsound (by omega) (by simp only [Layout.words]; omega)
    have haccessEnd : log.access (log.layout.endAfter count) 1 = .ok () :=
      access_ok hsound hend (by omega)
    have haccessHead : log.access (log.layout.headerAt count) 1 = .ok () :=
      access_ok hsound hhead (by omega)
    simp only [slot, Layout.appenderAt, hheader, hbody, hstop, hnext, haccess, haccessEnd,
      haccessHead, orBroken_ok, ok_bind, if_pos hfits, if_neg hlong,
      if_neg (Nat.not_lt.mpr hcapacity)]
    rfl
  · have hfull : log.capacity < log.layout.endAfter (count + 1) := by
      have hiff := lt_room_iff hsound count
      omega
    simp only [slot, Layout.appenderAt, hheader, hbody, hstop, orBroken_ok, ok_bind,
      if_neg hfits, if_pos hfull]
    rfl

/-- An append that has a slot stores its fill and then commits; without a slot it stores nothing. -/
theorem plan_eq (fill : List Edit) : log.plan (log.layout.appenderAt count) fill =
    if count < log.room then
      match fillStores (log.layout.bodyAt count) log.layout.words fill with
      | (stores, .error fault) => ⟨stores, .error (.broken fault)⟩
      | (stores, .ok ()) =>
          ⟨stores ++ log.layout.commitStores count, .ok (log.layout.appenderAt (count + 1))⟩
    else ⟨[], .error (.of (.logFull log.name count log.layout.bytes (log.layout.bodyAt count)
      log.capacity))⟩ := by
  by_cases hfits : count < log.room
  · simp only [plan, slot_eq hsound hroom, if_pos hfits]
    rcases fillStores (log.layout.bodyAt count) log.layout.words fill with ⟨stores, fault | ⟨⟩⟩
    · rfl
    · simp only [Layout.commitStores, Layout.appenderAt, List.append_assoc]
  · simp only [plan, slot_eq hsound hroom, if_neg hfits]

theorem plan_stores {fill : List Edit} (hworks : ∀ edit ∈ fill, edit.Works log.layout.words)
    (hfits : count < log.room) : (log.plan (log.layout.appenderAt count) fill).stores =
      (fillStores (log.layout.bodyAt count) log.layout.words fill).1 ++
        log.layout.commitStores count := by
  have hok := fillStores_works (log.layout.bodyAt count) hworks
  rw [plan_eq hsound hroom, if_pos hfits]
  rcases hfill : fillStores (log.layout.bodyAt count) log.layout.words fill with ⟨stores, outcome⟩
  rw [hfill] at hok
  cases hok
  rfl

end Plan

/-- A store at a place that is no body leaves the words of all bodies as they are. -/
theorem word_setFrame (log : Log) (place : Layout.Place) (hreal : place.Real log.layout)
    (hplace : ∀ index word, Layout.Place.body index word ≠ place) (value : Word) (index word : Nat)
    (hword : word < log.layout.words) :
    (log.setWord (place.position log.layout) value).word (log.layout.bodyAt index + word * 8) =
      log.word (log.layout.bodyAt index + word * 8) := by
  have h := word_setPlace log place (.body index word) hreal hword value
  rwa [if_neg (hplace index word)] at h

theorem storeAll_padding {log : Log} {count : Nat} (hsound : log.Sound)
    (hframe : log.Framed count count) :
    let after := log.storeAll
      (paddingStores (log.layout.endAfter count) (log.layout.headerAt count))
    after.Sound ∧ after.Framed (count + 1) count ∧
      ∀ index word, word < log.layout.words →
        after.word (log.layout.bodyAt index + word * 8) =
          log.word (log.layout.bodyAt index + word * 8) := by
  have hbounds := log.layout.entry_bounds count
  by_cases hgap : log.layout.endAfter count < log.layout.headerAt count
  · rw [paddingStores, if_neg (by omega)]
    exact ⟨hsound.setWord _ _, hframe.setFiller hgap,
      word_setFrame log (.filler count) hgap (by simp) _⟩
  · rw [paddingStores, if_pos (by omega)]
    exact ⟨hsound, hframe.skipFiller hgap, fun _ _ _ => rfl⟩

/-- The frame after the stores that commit the next record. They leave the bodies as they are. -/
theorem storeAll_commit {log : Log} {count : Nat} (hsound : log.Sound)
    (hframe : log.Framed count count) (hfits : count < log.room) :
    let after := log.storeAll (log.layout.commitStores count)
    after.Sound ∧ after.Framed (count + 1) (count + 1) ∧
      (∀ index word, word < log.layout.words →
        after.word (log.layout.bodyAt index + word * 8) =
          log.word (log.layout.bodyAt index + word * 8)) ∧
      after.writePosition = log.layout.endAfter (count + 1) ∧ after.appended = count + 1 := by
  have hcapacity := (lt_room_iff hsound count).mp hfits
  obtain ⟨hpadded, hframed, hsame⟩ := storeAll_padding hsound hframe
  rw [Layout.commitStores, storeAll_append]
  have hlayout := layout_storeAll log
    (paddingStores (log.layout.endAfter count) (log.layout.headerAt count))
  have hstop : log.layout.endAfter (count + 1) ≤ (log.storeAll
      (paddingStores (log.layout.endAfter count) (log.layout.headerAt count))).capacity := by
    rwa [capacity_storeAll]
  revert hpadded hframed hsame hlayout hstop
  generalize log.storeAll
    (paddingStores (log.layout.endAfter count) (log.layout.headerAt count)) = padded
  intro hpadded hframed hsame hlayout hstop
  have hheader := hframed.setHeader
  rw [← hlayout] at hsame hstop ⊢
  refine ⟨⟨hpadded.layout, hpadded.pages, hpadded.one_page, hpadded.small, hpadded.touched, hstop⟩,
    hheader.of_words rfl rfl, fun index word hword => ?_, rfl, rfl⟩
  exact (word_setFrame padded (.header count) trivial (by simp) _ index word hword).trans
    (hsame index word hword)

/-- Committing a record where one was committed before stores the same frame again, so the frame is
that of the most records there have been. -/
theorem storeAll_recommit {log : Log} {records count : Nat} (hsound : log.Sound)
    (hframe : log.Framed records records) (hcount : count ≤ records) (hfits : count < log.room) :
    let after := log.storeAll (log.layout.commitStores count)
    after.Sound ∧ after.Framed (max records (count + 1)) (max records (count + 1)) := by
  rcases Nat.eq_or_lt_of_le hcount with rfl | hbefore
  · obtain ⟨hafter, hframed, -⟩ := storeAll_commit hsound hframe hfits
    rw [Nat.max_eq_right (Nat.le_succ count)]
    exact ⟨hafter, hframed⟩
  · refine ⟨hsound.storeAll fun position hmember => ?_, ?_⟩
    · obtain h | ⟨h, -⟩ | h | h := Layout.mem_commitStores hmember <;> cases h
      exact (lt_room_iff hsound count).mp hfits
    · rw [Nat.max_eq_left hbefore]
      refine hframe.of_reads (word_storeAll_same fun position value hmember => ?_)
        (layout_storeAll log _)
      obtain h | ⟨h, hreal⟩ | h | h := Layout.mem_commitStores hmember <;> cases h
      · rw [hframe.header count, if_pos hbefore]
      · rw [hframe.filler count hreal, if_pos hbefore]

/-! ### Records -/

/-- A record has the words of its body. -/
theorem record_words (log : Log) (layout : Layout) (index : Nat) :
    log.record (layout.viewAt index) =
      ⟨(List.range layout.words).map fun word => log.word (layout.bodyAt index + word * 8)⟩ := by
  have haligned := layout.bodyAt_aligned index
  simp only [record, Layout.viewAt, Words.slice, Record.mk.injEq]
  apply List.map_congr_left
  intro word _
  simp only [Log.word]
  congr 1
  omega

theorem isLast_viewAt (log : Log) (layout : Layout) (index : Nat) :
    (log.record (layout.viewAt index)).isLast =
      decide ((log.word (layout.bodyAt index)).signed = 0) := by
  rw [record_words, Record.isLast, Record.remaining, Layout.words, List.range_succ_eq_map,
    List.map_cons, List.getD_cons_zero, Nat.zero_mul, Nat.add_zero]

theorem time_viewAt (log : Log) {layout : Layout} (index : Nat) {slot : Nat}
    (hslot : slot + 1 < layout.words) (hsmall : layout.words < wordLimit) :
    (log.record (layout.viewAt index)).time slot =
      .ok (log.word (layout.bodyAt index + (slot + 1) * 8)) := by
  rw [record_words, Record.time, List.length_map, List.length_range, timeWord_ok hslot hsmall,
    ok_bind]
  simp [pure, Except.pure, hslot]

/-- The log has `count` records, and the words of the bodies are those that `content` gives. -/
structure Holds (log : Log) (count : Nat) (content : Nat → Nat → Word) : Prop where
  sound : log.Sound
  framed : log.Framed count count
  fits : count ≤ log.room
  content : ∀ index word, word < log.layout.words →
    log.word (log.layout.bodyAt index + word * 8) = content index word
  position : log.writePosition = log.layout.endAfter count
  appended : log.appended = count

/-- Only the words of the layout's records count. -/
theorem Holds.congr {log : Log} {count : Nat} {content other : Nat → Nat → Word}
    (h : log.Holds count content)
    (hsame : ∀ index word, word < log.layout.words → content index word = other index word) :
    log.Holds count other :=
  ⟨h.sound, h.framed, h.fits, fun index word hword =>
    (h.content index word hword).trans (hsame index word hword), h.position, h.appended⟩

/-- Taking the appender, or giving it back, changes nothing that the log holds. -/
theorem Holds.taken {log : Log} {count : Nat} {content : Nat → Nat → Word}
    (h : log.Holds count content) (taken : Bool) :
    { log with appenderTaken := taken }.Holds count content :=
  ⟨⟨h.sound.layout, h.sound.pages, h.sound.one_page, h.sound.small, h.sound.touched,
    h.sound.written⟩, h.framed.of_words rfl rfl, h.fits, h.content, h.position, h.appended⟩

/-- What the words of the bodies are after a fill of record `count`. -/
def filledWith (words count : Nat) (fill : List Edit) (content : Nat → Nat → Word) :
    Nat → Nat → Word :=
  fun index word =>
    if index = count then (Edit.written words fill word).getD (content index word)
    else content index word

section Holds

variable {log : Log} {count : Nat} {content : Nat → Nat → Word} (h : log.Holds count content)

include h

/-- An append with room adds one record: the words its fill wrote over what stood there. -/
theorem appendWith_room {fill : List Edit} (hworks : ∀ edit ∈ fill, edit.Works log.layout.words)
    (hroom : count < log.room) :
    ∃ after, log.appendWith (log.layout.appenderAt count) fill =
        (after, log.layout.appenderAt (count + 1), .ok count) ∧
      after.layout = log.layout ∧ after.capacity = log.capacity ∧
      after.Holds (count + 1) (filledWith log.layout.words count fill content) := by
  have hfill := storeAll_fill log h.sound h.framed count fill hworks
  have hok := fillStores_works (log.layout.bodyAt count) hworks
  have hplan := plan_eq h.sound h.fits fill
  rw [if_pos hroom] at hplan
  rcases hstores : fillStores (log.layout.bodyAt count) log.layout.words fill with ⟨stores, outcome⟩
  simp only [hstores] at hfill hok hplan
  subst hok
  have hlayout := layout_storeAll log stores
  obtain ⟨hsound, hframed, hwords⟩ := hfill
  have hcommit := storeAll_commit hsound hframed (by rwa [room_storeAll])
  rw [hlayout] at hcommit
  obtain ⟨hsound', hframed', hsame, hposition, happended⟩ := hcommit
  refine ⟨(log.storeAll stores).storeAll (log.layout.commitStores count), ?_, ?_, ?_, ?_⟩
  · simp only [appendWith, hplan, storeAll_append]
    rfl
  · simp
  · simp
  · have hlayout' : ((log.storeAll stores).storeAll (log.layout.commitStores count)).layout =
        log.layout := by simp
    refine ⟨hsound', hframed', ?_, ?_, ?_, happended⟩
    · rw [room_storeAll, room_storeAll]
      exact hroom
    · intro index word hword
      rw [hlayout'] at hword ⊢
      rw [hsame index word hword, hwords index word hword, h.content index word hword]
      rfl
    · rw [hlayout', hposition]

/-- An append without room leaves the log and its appender as they are. -/
theorem appendWith_full (fill : List Edit) (hroom : log.room ≤ count) :
    log.appendWith (log.layout.appenderAt count) fill =
      (log, log.layout.appenderAt count, .error (.of (.logFull log.name count log.layout.bytes
        (log.layout.bodyAt count) log.capacity))) := by
  have hplan := plan_eq h.sound h.fits fill
  rw [if_neg (by omega)] at hplan
  simp only [appendWith, hplan]
  rfl

/-- An edit through the view of a record changes the one word it names. -/
theorem edit_works (index : Nat) {change : Edit} {word : Nat} {value : Word}
    (htarget : change.target log.layout.words = .ok (word, value)) :
    ∃ after, log.edit (log.layout.viewAt index) change = (after, .ok ()) ∧
      after = log.setWord (log.layout.bodyAt index + word * 8) value ∧
      after.Holds count fun other otherWord =>
        if other = index ∧ otherWord = word then value else content other otherWord := by
  have hlt := Edit.target_lt htarget
  refine ⟨log.setWord (log.layout.bodyAt index + word * 8) value, ?_, rfl, ?_⟩
  · simp only [edit, Layout.viewAt, htarget]
  · refine ⟨h.sound.setWord _ _, h.framed.setBody hlt value, h.fits,
      fun other otherWord hother => ?_, h.position, h.appended⟩
    rw [layout_setWord] at hother ⊢
    rw [word_setBody log hlt hother, h.content other otherWord hother]

theorem record_viewAt (index : Nat) :
    log.record (log.layout.viewAt index) =
      ⟨(List.range log.layout.words).map (content index)⟩ := by
  rw [record_words, Record.mk.injEq]
  apply List.map_congr_left
  intro word hword
  exact h.content index word (List.mem_range.mp hword)

end Holds

theorem capacityFor_ok {bytes capacity : Nat} (h : capacityFor bytes = .ok capacity) :
    capacity % pageBytes = 0 ∧ pageBytes ≤ capacity := by
  have hexact := Checked.mul_exact h
  simp only [pageBytes] at hexact ⊢
  omega

theorem stride_eq {layout : Layout} (h : layout.Valid) : layout.stride = .ok layout.span := by
  have hfew := h.few_stages
  have hspan := layout.span_bounds
  have hbytes := layout.bytes_eq
  have hadd : Checked.add layout.bytes headerBytes = .ok (layout.bytes + headerBytes) :=
    Checked.add_ok (by simp only [maxStages, headerBytes, wordLimit] at *; omega)
  rw [Layout.stride, hadd, ok_bind]
  exact Checked.mul_ok (by
    change layout.span < wordLimit
    simp only [maxStages, wordLimit] at *
    omega)

/-- A log that could be created has a file of its own, as large as the file system takes it, and the
system refused nothing. -/
theorem create_ok {storage after : Storage} {directory name : String} {layout : Layout}
    {bytes : Nat} {backing : Storage.Backing} {log : Log}
    (h : create storage directory name layout bytes backing = (after, .ok log)) :
    backing = .sound ∧ ∃ capacity created, capacityFor bytes = .ok capacity ∧
      storage.createNew (Storage.join directory (name ++ ".log")) (.log 0) = .ok created ∧
      created.resize (Storage.join directory (name ++ ".log")) capacity none = .ok after ∧
      log = ⟨name, Storage.join directory (name ++ ".log"), capacity, layout, .zeros, 0, 0, 0,
        false⟩ := by
  obtain ⟨opening, sizing, mapping⟩ := backing
  simp only [create] at h
  split at h
  · cases h
  · rename_i capacity hcapacity
    split at h
    · cases h
    · rename_i created hgranted
      obtain ⟨rfl, hcreated⟩ := Storage.Backing.grant_ok hgranted
      split at h
      · cases h
      · rename_i sized hsized
        obtain rfl := (Storage.resize_ok hsized).1
        cases mapping with
        | refused refusal => cases h
        | null => cases h
        | mapped =>
            cases h
            exact ⟨rfl, capacity, created, hcapacity, hcreated, hsized, rfl⟩

section Create

variable {storage after : Storage} {directory name : String} {layout : Layout} {bytes : Nat}
  {log : Log}

/-- A log that has just been created holds no record, and zeros. -/
theorem create_holds (hlayout : layout.Valid)
    (h : create storage directory name layout bytes = (after, .ok log)) :
    log.Holds 0 (fun _ _ => 0) ∧ log.layout = layout ∧ log.appenderTaken = false := by
  obtain ⟨-, capacity, created, hcapacity, -, hsized, rfl⟩ := create_ok h
  have hsize := capacityFor_ok hcapacity
  obtain ⟨-, -, -, hsmall, -⟩ := Storage.resize_ok hsized
  refine ⟨⟨⟨hlayout, hsize.1, hsize.2, hsmall, ⟨rfl, Nat.zero_le _⟩, Nat.zero_le _⟩,
    ⟨fun index _ => ?_, fun index => ?_, fun position _ _ => ?_⟩, Nat.zero_le _,
    fun index _ _ => ?_, rfl, rfl⟩, rfl, rfl⟩
  all_goals simp [word, Words.get_zeros]

theorem create_capacity (h : create storage directory name layout bytes = (after, .ok log)) :
    capacityFor bytes = .ok log.capacity := by
  obtain ⟨-, capacity, -, hcapacity, -, -, rfl⟩ := create_ok h
  exact hcapacity

/-- No pretouch has reached a page of a log that was just made. -/
theorem create_pretouched (h : create storage directory name layout bytes = (after, .ok log)) :
    log.pretouched = 0 := by
  obtain ⟨-, -, -, -, -, -, rfl⟩ := create_ok h
  rfl

end Create

private theorem forM_access {log : Log} (pages : List Nat)
    (h : ∀ page ∈ pages, log.access page 1 = .ok ()) :
    (pages.forM fun page => log.access page 1) = .ok () := by
  induction pages with
  | nil => rfl
  | cons page rest ih =>
      change (log.access page 1 >>= fun _ => rest.forM fun page => log.access page 1) = .ok ()
      rw [h page (by simp)]
      exact ih fun other hother => h other (by simp [hother])

section Pages

variable {log : Log} {first target : Nat} (h : log.Sound) (hfirst : first % 4096 = 0)
  (htarget : target ≤ log.capacity)

include h hfirst htarget

private theorem access_pages (page : Nat) (hpage : page ∈ pagesFrom first target) :
    log.access page 1 = .ok () := by
  have hpages := h.pages
  simp only [pageBytes] at hpages
  simp only [pagesFrom, List.mem_map, List.mem_range, pageBytes] at hpage
  obtain ⟨k, hk, rfl⟩ := hpage
  exact access_ok h (by omega) (by omega)

private theorem pages_end (hinside : first ≤ log.capacity) :
    (first + (pagesFrom first target).length * pageBytes) % pageBytes = 0 ∧
      first + (pagesFrom first target).length * pageBytes ≤ log.capacity := by
  have hpages := h.pages
  have hlength : (pagesFrom first target).length = (target - first + 4095) / 4096 := by
    simp [pagesFrom, pageBytes]
  rw [hlength]
  simp only [pageBytes] at *
  omega

end Pages

def pretouchFrom (log : Log) : Nat :=
  max log.pretouched (log.writePosition / pageBytes * pageBytes)

def pretouchTo (log : Log) : Nat := min (log.writePosition + pretouchAhead) log.capacity

theorem pretouchTo_le (log : Log) : log.pretouchTo ≤ log.capacity := Nat.min_le_right _ _

def afterPretouch (log : Log) : Log :=
  { log with pretouched :=
      log.pretouchFrom + (pagesFrom log.pretouchFrom log.pretouchTo).length * pageBytes }

section Pretouch

variable {log : Log} (h : log.Sound)

include h

theorem pretouchFrom_bounds : log.pretouchFrom % 4096 = 0 ∧ log.pretouchFrom ≤ log.capacity := by
  have htouched := h.touched
  have hwritten := h.written
  simp only [pretouchFrom, pageBytes] at *
  omega

private theorem access_pretouched : ∀ page ∈ pagesFrom log.pretouchFrom log.pretouchTo,
    log.access page 1 = .ok () :=
  access_pages h (pretouchFrom_bounds h).1 log.pretouchTo_le

/-- Pretouching never breaks. It touches the pages of its own range. -/
theorem pretouch_eq : log.pretouch =
    .ok (log.afterPretouch, pagesFrom log.pretouchFrom log.pretouchTo) := by
  have hsmall := h.small
  have hwritten := h.written
  simp only [signedLimit] at hsmall
  obtain ⟨haligned, hinside⟩ := pretouchFrom_bounds h
  have hend := pages_end h haligned log.pretouchTo_le hinside
  have hadd : Checked.add log.writePosition pretouchAhead =
      .ok (log.writePosition + pretouchAhead) :=
    Checked.add_ok (by simp only [pretouchAhead, wordLimit]; omega)
  have hreached : Checked.add log.pretouchFrom
      ((pagesFrom log.pretouchFrom log.pretouchTo).length * pageBytes) = .ok
        (log.pretouchFrom + (pagesFrom log.pretouchFrom log.pretouchTo).length * pageBytes) :=
    Checked.add_ok (by simp only [wordLimit]; omega)
  have haccess := forM_access _ (access_pretouched h)
  unfold pretouch afterPretouch
  rw [hadd, ok_bind]
  simp only [pretouchFrom, pretouchTo] at haccess hreached ⊢
  simp only [haccess, ok_bind, hreached]
  rfl

theorem afterPretouch_sound : log.afterPretouch.Sound := by
  obtain ⟨haligned, hinside⟩ := pretouchFrom_bounds h
  have hend := pages_end h haligned log.pretouchTo_le hinside
  rw [afterPretouch]
  exact { h with touched := hend }

/-- It moves no more than its own position. -/
theorem pretouch_sound :
    ∃ reached pages, log.pretouch = .ok ({ log with pretouched := reached }, pages) ∧
      { log with pretouched := reached }.Sound ∧ ∀ page ∈ pages, log.access page 1 = .ok () :=
  ⟨_, _, pretouch_eq h, afterPretouch_sound h, access_pretouched h⟩

end Pretouch

theorem Holds.pretouch {log : Log} {count : Nat} {content : Nat → Nat → Word}
    (h : log.Holds count content) : ∃ after pages, log.pretouch = .ok (after, pages) ∧
      after.layout = log.layout ∧ after.capacity = log.capacity ∧ after.Holds count content := by
  obtain ⟨reached, pages, hpretouch, hsound, -⟩ := pretouch_sound h.sound
  exact ⟨_, pages, hpretouch, rfl, rfl, hsound, h.framed.of_words rfl rfl, h.fits, h.content,
    h.position, h.appended⟩

end Log

end GatedPipeline
