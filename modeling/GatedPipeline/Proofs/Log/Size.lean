import GatedPipeline.Proofs.Log.Contents

/-!
The size of a log file. The number of bytes for so many records is computed from the distance
between two bodies and rounded up to whole pages; either one of the steps overflows, or a log of
that size has room for all the records.
-/

namespace GatedPipeline.Log

/-- A number of whole pages is kept. -/
theorem capacityFor_pages {pages : Nat} (hsome : 0 < pages) (hsmall : pages * 4096 < wordLimit) :
    capacityFor (pages * 4096) = .ok (pages * 4096) := by
  have hpages : (max (pages * 4096) pageBytes + pageBytes - 1) / pageBytes = pages := by
    simp only [pageBytes]
    omega
  unfold capacityFor Checked.roundUp
  rw [hpages]
  exact Checked.mul_ok hsmall

section Size

variable {layout : Layout} (h : layout.Valid) (records : Nat)

include h

theorem bytesFor_fits (hsmall : 64 + layout.span * records ≤ wordLimit - 4096) :
    ∃ bytes, layout.bytesFor records = .ok bytes ∧ capacityFor bytes = .ok bytes ∧
      64 + layout.span * records ≤ bytes ∧ bytes < 64 + layout.span * records + 4096 := by
  simp only [wordLimit] at hsmall
  have hentries : Checked.mul layout.span records = .ok (layout.span * records) :=
    Checked.mul_ok (by simp only [wordLimit]; omega)
  have hadd : Checked.add alignment (layout.span * records) =
      .ok (64 + layout.span * records) :=
    Checked.add_ok (by simp only [alignment, wordLimit]; omega)
  refine ⟨(64 + layout.span * records + 4095) / 4096 * 4096, ?_, ?_, by omega, by omega⟩
  · unfold Layout.bytesFor
    rw [stride_eq h, ok_bind, hentries, ok_bind, hadd, ok_bind]
    exact Checked.mul_ok (by simp only [pageBytes, wordLimit]; omega)
  · exact capacityFor_pages (by omega) (by simp only [wordLimit]; omega)

theorem bytesFor_overflow :
    (layout.bytesFor records = .error .addOverflow ∨
      layout.bytesFor records = .error .multiplyOverflow) ↔
        wordLimit - 4096 < 64 + layout.span * records := by
  refine ⟨fun hfault => ?_, fun hlarge => ?_⟩
  · apply Nat.lt_of_not_le
    intro hsmall
    obtain ⟨bytes, hbytes, -⟩ := bytesFor_fits h records hsmall
    rcases hfault with hfault | hfault <;> rw [hfault] at hbytes <;> cases hbytes
  · unfold Layout.bytesFor
    rw [stride_eq h, ok_bind]
    -- the first of the three operations that leaves the words breaks
    by_cases hentries : layout.span * records < wordLimit
    · rw [Checked.mul_ok hentries, ok_bind]
      by_cases hadd : alignment + layout.span * records < wordLimit
      · rw [Checked.add_ok hadd, ok_bind]
        apply Or.inr
        apply Checked.mul_over
        simp only [alignment, pageBytes, wordLimit] at *
        omega
      · rw [Checked.add_over hadd]
        exact .inl rfl
    · rw [Checked.mul_over hentries]
      exact .inr rfl

variable {records} {bytes : Nat} (hbytes : layout.bytesFor records = .ok bytes)

include hbytes

theorem bytesFor_small : 64 + layout.span * records ≤ wordLimit - 4096 := by
  apply Nat.le_of_not_lt
  intro hlarge
  rcases (bytesFor_overflow h records).mpr hlarge with hfault | hfault <;>
    rw [hfault] at hbytes <;> cases hbytes

theorem bytesFor_kept : capacityFor bytes = .ok bytes ∧ 64 + layout.span * records ≤ bytes := by
  obtain ⟨whole, hwhole, hkept, hlow, -⟩ :=
    bytesFor_fits h records (bytesFor_small h hbytes)
  obtain rfl : whole = bytes := Except.ok.inj (hwhole.symm.trans hbytes)
  exact ⟨hkept, hlow⟩

/-- In so many bytes there is room for all the records. -/
theorem bytesFor_room : records ≤ (bytes - 64 - layout.bytes) / layout.span + 1 := by
  have hlow := (bytesFor_kept h hbytes).2
  have hspan := layout.span_bounds
  cases records with
  | zero => exact Nat.zero_le _
  | succ records =>
      rw [Nat.mul_succ] at hlow
      apply Nat.succ_le_succ
      rw [Nat.le_div_iff_mul_le (by omega), Nat.mul_comm]
      omega

theorem create_bytesFor {storage after : Storage} {directory name : String} {log : Log}
    (hcreate : create storage directory name layout bytes = (after, .ok log)) :
    log.capacity = bytes :=
  Except.ok.inj ((create_capacity hcreate).symm.trans (bytesFor_kept h hbytes).1)

end Size

end GatedPipeline.Log
