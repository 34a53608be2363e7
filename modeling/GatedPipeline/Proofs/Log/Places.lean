import GatedPipeline.Log.Basic

/-!
The places of a log. Record `i` has a header, the words of its body and, where its header does not
follow the entry before it at once, a filler in front of it. The byte positions of all places are
given in closed form, and the walk from one entry to the next meets the same positions. Two
different places never share a position, so a store at one of them leaves all others as they are.
-/

namespace GatedPipeline.Layout

open Log (alignment headerBytes)

/-- A layout that `ofStages` gives: its records have a slot for one stage at least. -/
structure Valid (layout : Layout) : Prop where
  some_stage : 1 ≤ layout.stages
  few_stages : layout.stages ≤ maxStages

theorem ofStages_ok {stages : Nat} {layout : Layout} (h : ofStages stages = .ok layout) :
    layout.Valid ∧ layout.stages = stages := by
  unfold ofStages at h
  split at h
  · cases h
  · split at h
    · cases h
    · cases h
      exact ⟨⟨by simp only; omega, by simp only; omega⟩, rfl⟩

/-- Bytes from the body of one record to the body of the next. -/
def span (layout : Layout) : Nat :=
  (layout.bytes + headerBytes + (alignment - 1)) / alignment * alignment

def bodyAt (layout : Layout) (index : Nat) : Nat := alignment + index * layout.span

def headerAt (layout : Layout) (index : Nat) : Nat := 56 + index * layout.span

def endAfter (layout : Layout) : (count : Nat) → Nat
  | 0 => 0
  | count + 1 => layout.bodyAt count + layout.bytes

def viewAt (layout : Layout) (index : Nat) : View := ⟨layout.bodyAt index, layout.words⟩

theorem bytes_eq (layout : Layout) : layout.bytes = (layout.stages + 2) * 8 := rfl

theorem headerAt_add (layout : Layout) (index : Nat) :
    layout.headerAt index + headerBytes = layout.bodyAt index := by
  simp only [headerAt, bodyAt, headerBytes, alignment]
  omega

theorem bodyAt_succ (layout : Layout) (index : Nat) :
    layout.bodyAt (index + 1) = layout.bodyAt index + layout.span := by
  simp only [bodyAt, Nat.add_mul, Nat.one_mul]
  omega

theorem span_bounds (layout : Layout) :
    layout.bytes + 8 ≤ layout.span ∧ layout.span < layout.bytes + 72 ∧ layout.span % 64 = 0 := by
  simp only [span, headerBytes, alignment]
  omega

theorem bodyAt_aligned (layout : Layout) (index : Nat) : layout.bodyAt index % 64 = 0 := by
  have hspan : 64 ∣ index * layout.span :=
    Nat.dvd_mul_left_of_dvd (Nat.dvd_of_mod_eq_zero layout.span_bounds.2.2) index
  simp only [bodyAt, alignment]
  omega

/-- The header of a record follows the entry before it with a gap of less than one boundary, and
its entry ends with its body. -/
theorem entry_bounds (layout : Layout) (index : Nat) :
    layout.endAfter index ≤ layout.headerAt index ∧
      layout.headerAt index < layout.endAfter index + 64 ∧
      layout.endAfter (index + 1) = layout.bodyAt index + layout.bytes := by
  have hadd := layout.headerAt_add index
  have hspan := layout.span_bounds
  simp only [headerBytes] at hadd
  cases index with
  | zero => exact ⟨Nat.zero_le _, by simp [headerAt, endAfter], rfl⟩
  | succ index =>
      rw [bodyAt_succ] at hadd
      refine ⟨?_, ?_, rfl⟩ <;> simp only [endAfter] <;> omega

theorem le_headerAt (layout : Layout) (index : Nat) : index ≤ layout.headerAt index := by
  have hspan := layout.span_bounds
  have hmul : index * 1 ≤ index * layout.span := Nat.mul_le_mul_left index (by omega)
  simp only [headerAt]
  omega

theorem endAfter_mono (layout : Layout) {first second : Nat} (h : first ≤ second) :
    layout.endAfter first ≤ layout.endAfter second := by
  induction h with
  | refl => exact Nat.le_refl _
  | @step second _ ih =>
      change layout.endAfter first ≤ layout.endAfter (second + 1)
      have hnext := layout.entry_bounds second
      have hadd := layout.headerAt_add second
      omega

/-- A position lies in the entry of one record only. -/
theorem entry_unique (layout : Layout) {one other position : Nat}
    (hfrom : layout.endAfter one ≤ position) (hto : position < layout.endAfter (one + 1))
    (hfrom' : layout.endAfter other ≤ position) (hto' : position < layout.endAfter (other + 1)) :
    one = other := by
  rcases Nat.lt_trichotomy one other with hlt | heq | hlt
  · have := layout.endAfter_mono (Nat.succ_le_of_lt hlt)
    simp only [Nat.succ_eq_add_one] at this
    omega
  · exact heq
  · have := layout.endAfter_mono (Nat.succ_le_of_lt hlt)
    simp only [Nat.succ_eq_add_one] at this
    omega

/-- What a word of the log is for. A filler is named by the record that it stands in front of. -/
inductive Place where
  | filler (record : Nat)
  | header (record : Nat)
  | body (record word : Nat)
  deriving DecidableEq, Repr

namespace Place

def record : Place → Nat
  | .filler index | .header index | .body index _ => index

def position (layout : Layout) : Place → Nat
  | .filler record => layout.endAfter record
  | .header record => layout.headerAt record
  | .body record word => layout.bodyAt record + word * 8

/-- Whether the log has this place: a filler only where there is a gap to fill. -/
def Real (layout : Layout) : Place → Prop
  | .filler record => layout.endAfter record < layout.headerAt record
  | .header _ => True
  | .body _ word => word < layout.words

theorem position_aligned (layout : Layout) (place : Place) : place.position layout % 8 = 0 := by
  cases place with
  | filler record =>
      cases record with
      | zero => rfl
      | succ record =>
          have hbody := layout.bodyAt_aligned record
          simp only [position, endAfter, bytes_eq]
          omega
  | header record =>
      have hbody := layout.bodyAt_aligned record
      have hadd := layout.headerAt_add record
      simp only [headerBytes] at hadd
      simp only [position]
      omega
  | body record word =>
      have hbody := layout.bodyAt_aligned record
      simp only [position]
      omega

/-- The places of a record lie between the end of the entry before it and its own end. -/
theorem position_within (layout : Layout) (place : Place) (h : place.Real layout) :
    layout.endAfter place.record ≤ place.position layout ∧
      place.position layout + 8 ≤ layout.endAfter (place.record + 1) := by
  have hend := layout.entry_bounds place.record
  have hadd := layout.headerAt_add place.record
  have hbytes := layout.bytes_eq
  cases place <;> simp only [Real, record, position, words, headerBytes] at * <;> omega

theorem position_injective (layout : Layout) (one other : Place) (hone : one.Real layout)
    (hother : other.Real layout) (h : one.position layout = other.position layout) :
    one = other := by
  have hin := position_within layout one hone
  have hin' := position_within layout other hother
  have hrecord : one.record = other.record := by
    apply layout.entry_unique hin.1 _ (h ▸ hin'.1) <;> omega
  have hadd := layout.headerAt_add one.record
  simp only [headerBytes] at hadd
  cases one <;> cases other <;> simp only [record] at hrecord hadd <;> subst hrecord <;>
    simp only [position, Real] at * <;> first | rfl | (exfalso; omega) | (congr 1; omega)

end Place

end GatedPipeline.Layout
