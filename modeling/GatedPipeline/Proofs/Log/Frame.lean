import GatedPipeline.Log.Tail
import GatedPipeline.Proofs.Arithmetic
import GatedPipeline.Proofs.Log.Places

/-!
The frame of a log: which headers and fillers stand in it. Every reachable log, also one in the
middle of an append, has the headers of its first `records` records and the fillers of its first
`fillers` ones, and zeros at all other places outside bodies. From the frame alone follows what one
header load of a cursor finds, so no body word is ever taken for a header.
-/

namespace GatedPipeline.Log

/-- What creating a log fixes, and the bounds of its two positions. -/
structure Sound (log : Log) : Prop where
  layout : log.layout.Valid
  pages : log.capacity % pageBytes = 0
  one_page : pageBytes ≤ log.capacity
  small : (log.capacity : Int) < signedLimit
  touched : log.pretouched % pageBytes = 0 ∧ log.pretouched ≤ log.capacity
  written : log.writePosition ≤ log.capacity

def room (log : Log) : Nat :=
  (log.capacity - alignment - log.layout.bytes) / log.layout.span + 1

theorem lt_room_iff {log : Log} (h : log.Sound) (index : Nat) :
    index < log.room ↔ log.layout.endAfter (index + 1) ≤ log.capacity := by
  have hfew := h.layout.few_stages
  have hpage := h.one_page
  have hspan := log.layout.span_bounds
  have hbytes := log.layout.bytes_eq
  simp only [maxStages, pageBytes] at hfew hpage
  simp only [room, Layout.endAfter, Layout.bodyAt, alignment, Nat.lt_succ_iff]
  rw [Nat.le_div_iff_mul_le (by omega)]
  omega

theorem endAfter_le_capacity {log : Log} (h : log.Sound) {count : Nat} (hroom : count ≤ log.room) :
    log.layout.endAfter count ≤ log.capacity := by
  cases count with
  | zero => exact Nat.zero_le _
  | succ index => exact (lt_room_iff h index).mp hroom

/-- Indices of words are far from the bound of words. -/
theorem Sound.narrow {log : Log} (h : log.Sound) : log.layout.words < wordLimit := by
  have hfew := h.layout.few_stages
  simp only [Layout.words, maxStages, wordLimit] at *
  omega

/-- Positions up to the header behind the last entry are far from the bound of words. -/
theorem headerAt_small {log : Log} (h : log.Sound) {count : Nat} (hroom : count ≤ log.room) :
    log.layout.headerAt count + 1024 < wordLimit := by
  have hend := endAfter_le_capacity h hroom
  have hsmall := h.small
  have hspan := log.layout.span_bounds
  have hbytes := log.layout.bytes_eq
  have hfew := h.layout.few_stages
  simp only [maxStages, signedLimit, wordLimit] at *
  cases count with
  | zero => simp only [Layout.headerAt]; omega
  | succ index =>
      have hadd := log.layout.headerAt_add (index + 1)
      have hnext := log.layout.bodyAt_succ index
      simp only [Layout.endAfter, headerBytes] at *
      omega

/-! ### Single words -/

@[simp] theorem layout_setWord (log : Log) (position : Nat) (value : Word) :
    (log.setWord position value).layout = log.layout := rfl

@[simp] theorem capacity_setWord (log : Log) (position : Nat) (value : Word) :
    (log.setWord position value).capacity = log.capacity := rfl

theorem word_setWord (log : Log) (position other : Nat) (value : Word) :
    (log.setWord position value).word other =
      if other / 8 = position / 8 then value else log.word other :=
  Words.get_set log.words (position / 8) (other / 8) value

/-- A store at one place changes no other place. -/
theorem word_setPlace (log : Log) (one other : Layout.Place) (hone : one.Real log.layout)
    (hother : other.Real log.layout) (value : Word) :
    (log.setWord (one.position log.layout) value).word (other.position log.layout) =
      if other = one then value else log.word (other.position log.layout) := by
  have haligned := one.position_aligned log.layout
  have haligned' := other.position_aligned log.layout
  rw [word_setWord]
  by_cases h : other = one
  · subst h
    simp
  · have hne : other.position log.layout ≠ one.position log.layout := fun heq =>
      h (Layout.Place.position_injective log.layout other one hother hone heq)
    rw [if_neg (by omega), if_neg h]

theorem access_ok {log : Log} {position words : Nat} (h : log.Sound) (haligned : position % 8 = 0)
    (hinside : position + words * 8 ≤ log.capacity) : log.access position words = .ok () := by
  have hsmall := h.small
  have hadd : Checked.add position (words * 8) = .ok (position + words * 8) :=
    Checked.add_ok (by simp only [signedLimit, wordLimit] at *; omega)
  simp only [access, hadd, ok_bind, haligned, hinside, and_self, if_true]
  rfl

/-! ### The frame -/

/-- The headers of the first `records` records and the fillers of the first `fillers` ones stand
where they belong; every other word outside bodies is zero. -/
structure Framed (log : Log) (fillers records : Nat) : Prop where
  filler : ∀ index, (Layout.Place.filler index).Real log.layout →
    log.word (log.layout.endAfter index) =
      if index < fillers then
        Header.paddingWord (log.layout.headerAt index - log.layout.endAfter index)
      else 0
  header : ∀ index, log.word (log.layout.headerAt index) =
    if index < records then Header.recordWord log.layout.bytes else 0
  blank : ∀ position, position % 8 = 0 →
    (∀ place : Layout.Place, place.Real log.layout → place.position log.layout ≠ position) →
    log.word position = 0

end GatedPipeline.Log

namespace GatedPipeline.Layout

def entryAt (layout : Layout) (index : Nat) : Entry := ⟨index, layout.viewAt index⟩

end GatedPipeline.Layout

namespace GatedPipeline.Tailer

open Log (headerBytes)

/-- The cursor stands in front of record `index`: where the entry before it ends, or at the
record's own header if the filler in between has been passed. -/
structure Stands (layout : Layout) (index : Nat) (tailer : Tailer) : Prop where
  next : tailer.next = index
  position : tailer.position = layout.endAfter index ∨ tailer.position = layout.headerAt index

theorem start_stands (layout : Layout) : Stands layout 0 .start := ⟨rfl, .inl rfl⟩

theorem end_stands (layout : Layout) (index : Nat) :
    Stands layout index ⟨layout.endAfter index, index⟩ := ⟨rfl, .inl rfl⟩

theorem probe_outside {log : Log} {tailer : Tailer} (h : log.capacity < tailer.position + 8)
    (hsmall : tailer.position + 8 < wordLimit) : probe log tailer = .pending := by
  have hadd : Checked.add tailer.position headerBytes = .ok (tailer.position + 8) :=
    Checked.add_ok hsmall
  simp only [probe, classify, hadd, ok_bind, h, if_true]
  rfl

section Inside

variable {log : Log} {tailer : Tailer} (hsound : log.Sound) (haligned : tailer.position % 8 = 0)
  (hinside : tailer.position + 8 ≤ log.capacity)

include hsound haligned hinside

private theorem loadable : Checked.add tailer.position headerBytes = .ok (tailer.position + 8) ∧
    ¬ log.capacity < tailer.position + 8 ∧ log.access tailer.position 1 = .ok () := by
  have hsmall := hsound.small
  refine ⟨Checked.add_ok ?_, by omega, Log.access_ok hsound haligned hinside⟩
  simp only [signedLimit, wordLimit, headerBytes] at *
  omega

theorem probe_empty (hword : Log.Header.ofWord (log.word tailer.position) = .empty) :
    probe log tailer = .pending := by
  obtain ⟨hadd, hin, haccess⟩ := loadable hsound haligned hinside
  simp only [probe, classify, hadd, ok_bind, hin, if_false, haccess, hword]
  rfl

theorem probe_padding {skip : Nat}
    (hword : Log.Header.ofWord (log.word tailer.position) = .padding skip)
    (hsmall : tailer.position + skip < wordLimit) :
    probe log tailer = .passed ⟨tailer.position + skip, tailer.next⟩ := by
  obtain ⟨hadd, hin, haccess⟩ := loadable hsound haligned hinside
  simp only [probe, classify, hadd, ok_bind, hin, if_false, haccess, hword,
    Checked.add_ok hsmall]
  rfl

theorem probe_record {words : Nat}
    (hword : Log.Header.ofWord (log.word tailer.position) = .record (words * 8))
    (hwords : 2 < words) (hbody : tailer.position + 8 + words * 8 ≤ log.capacity)
    (hnext : tailer.next + 1 < wordLimit) :
    probe log tailer = .found ⟨tailer.next, ⟨tailer.position + 8, words⟩⟩
      ⟨tailer.position + 8 + words * 8, tailer.next + 1⟩ := by
  obtain ⟨hadd, hin, haccess⟩ := loadable hsound haligned hinside
  have hlength : words * 8 / 8 = words := by omega
  have hlong : ¬ words ≤ 2 := by omega
  have hbodyAccess : log.access (tailer.position + 8) words = .ok () :=
    Log.access_ok hsound (by omega) hbody
  have hend : Checked.add (tailer.position + 8) (words * 8) =
      .ok (tailer.position + 8 + words * 8) := by
    have hsmall := hsound.small
    apply Checked.add_ok
    simp only [signedLimit, wordLimit] at *
    omega
  simp only [probe, classify, hadd, ok_bind, hin, if_false, haccess, hword, hlength,
    hbodyAccess, hlong, hend, Checked.add_ok hnext]
  rfl

end Inside

section Framed

variable {log : Log} {tailer : Tailer} {fillers records index : Nat} (hsound : log.Sound)
  (hframe : log.Framed fillers records) (horder : records ≤ fillers) (hroom : fillers ≤ log.room)
  (hindex : index ≤ records)

include hsound hframe horder hroom hindex

/-- At a record's own header a load finds the record, once its header is stored. -/
theorem probe_at_header (hnext : tailer.next = index)
    (hposition : tailer.position = log.layout.headerAt index) :
    probe log tailer =
      if index < records then
        .found (log.layout.entryAt index) ⟨log.layout.endAfter (index + 1), index + 1⟩
      else .pending := by
  have hsmall := Log.headerAt_small hsound (Nat.le_trans hindex (Nat.le_trans horder hroom))
  have hadd := log.layout.headerAt_add index
  have hend := (log.layout.entry_bounds index).2.2
  have haligned := (Layout.Place.header index).position_aligned log.layout
  simp only [Layout.Place.position, headerBytes] at haligned hadd
  rw [← hposition] at haligned hsmall hadd
  have hheader := hframe.header index
  rw [← hposition] at hheader
  by_cases hstored : index < records
  · have hfits := (Log.lt_room_iff hsound index).mp (by omega)
    have hbytes := log.layout.bytes_eq
    have hfew := hsound.layout.few_stages
    have hsome := hsound.layout.some_stage
    have hword : Log.Header.ofWord (log.word tailer.position) =
        .record (log.layout.words * 8) := by
      rw [hheader, if_pos hstored]
      apply Log.Header.ofWord_record _
      simp only [maxStages, Log.paddingMark] at *
      omega
    have hfound := probe_record hsound haligned (by omega) hword
      (by simp only [Layout.words]; omega) (by simp only [Layout.words]; omega)
      (by have := log.layout.le_headerAt index; omega)
    rw [hfound, if_pos hstored]
    simp only [Layout.entryAt, Layout.viewAt, hnext, hadd, hend]
    rfl
  · rw [if_neg hstored]
    rw [if_neg hstored] at hheader
    by_cases hinside : tailer.position + 8 ≤ log.capacity
    · exact probe_empty hsound haligned hinside (by rw [hheader]; rfl)
    · exact probe_outside (by omega) (by omega)

/-- In front of a filler a load passes it, once it is stored. -/
theorem probe_at_end (hnext : tailer.next = index)
    (hposition : tailer.position = log.layout.endAfter index)
    (hgap : log.layout.endAfter index < log.layout.headerAt index) :
    probe log tailer =
      if index < fillers then .passed ⟨log.layout.headerAt index, index⟩ else .pending := by
  have hsmall := Log.headerAt_small hsound (Nat.le_trans hindex (Nat.le_trans horder hroom))
  have haligned := (Layout.Place.filler index).position_aligned log.layout
  simp only [Layout.Place.position] at haligned
  have hfiller := hframe.filler index hgap
  rw [← hposition] at haligned hfiller hgap
  have hadd := log.layout.headerAt_add index
  have hend := (log.layout.entry_bounds index).2.2
  simp only [headerBytes] at hadd
  by_cases hstored : index < fillers
  · have hfits := (Log.lt_room_iff hsound index).mp (by omega)
    have hword : Log.Header.ofWord (log.word tailer.position) =
        .padding (log.layout.headerAt index - tailer.position) := by
      rw [hfiller, if_pos hstored]
      apply Log.Header.ofWord_padding _
      have hgapSmall := (log.layout.entry_bounds index).2.1
      simp only [Log.paddingMark]
      omega
    have hpassed := probe_padding hsound haligned (by omega) hword (by omega)
    rw [hpassed, if_pos hstored, hnext]
    congr 2
    omega
  · rw [if_neg hstored]
    rw [if_neg hstored] at hfiller
    by_cases hinside : tailer.position + 8 ≤ log.capacity
    · exact probe_empty hsound haligned hinside (by rw [hfiller]; rfl)
    · exact probe_outside (by omega) (by omega)

end Framed

end GatedPipeline.Tailer
