import GatedPipeline.Proofs.Log.Frame

/-!
Whole reads of a framed log. A read takes two header loads at most and answers the record the
cursor stands in front of, or nothing if that record is not committed; a fresh cursor drains the
committed records, each once and in order; seeking ends in front of the record asked for or, if it
is not there yet, behind the last one.
-/

namespace GatedPipeline

theorem Layout.mul_le_endAfter (layout : Layout) (count : Nat) :
    count * 8 ≤ layout.endAfter count := by
  cases count with
  | zero => exact Nat.zero_le _
  | succ index =>
      have hspan := layout.span_bounds
      have hmul : index * 8 ≤ index * layout.span := Nat.mul_le_mul_left index (by omega)
      simp only [endAfter, bodyAt, Log.alignment]
      omega

/-- The words that so many records take keep their number far below the bound of signed words. -/
theorem Log.index_small {log : Log} (h : log.Sound) {index : Nat} (hroom : index ≤ log.room) :
    (index : Int) < signedLimit := by
  have hend := endAfter_le_capacity h hroom
  have hmul := log.layout.mul_le_endAfter index
  have hsmall := h.small
  omega

namespace Tailer

/-- The positions whose header words a read of at most so many loads loads, in their order. -/
def loads (log : Log) : Nat → Tailer → List Nat
  | 0, _ => []
  | fuel + 1, tailer =>
      if log.capacity < tailer.position + Log.headerBytes then []
      else tailer.position ::
        match probe log tailer with
        | .passed after => loads log fuel after
        | _ => []

/-- The cursor in front of each of at most so many reads, made one after the other as long as they
find a record. -/
def stops (log : Log) : Nat → Tailer → List Tailer
  | 0, _ => []
  | reads + 1, tailer =>
      tailer ::
        match read log tailer with
        | (after, .ok (some _)) => stops log reads after
        | _ => []

theorem read_fuel {log : Log} (hsound : log.Sound) (tailer : Tailer) :
    ∃ fuel, read log tailer = advance log (fuel + 2) tailer := by
  have hpage := hsound.one_page
  simp only [Log.pageBytes] at hpage
  refine ⟨log.capacity / 8 - 1, ?_⟩
  rw [read, show log.capacity / 8 + 1 = log.capacity / 8 - 1 + 2 by omega]

/-! ### At any moment -/

section Moment

variable {log : Log} {fillers records : Nat} (hsound : log.Sound)
  (hframe : log.Framed fillers records) (horder : records ≤ fillers) (hroom : fillers ≤ log.room)

include hsound hframe horder hroom

/-- A read finds the record in front of the cursor once its header stands. -/
theorem read_found {tailer : Tailer} {index : Nat} (hindex : index < records)
    (h : Stands log.layout index tailer) :
    read log tailer =
      (⟨log.layout.endAfter (index + 1), index + 1⟩, .ok (some (log.layout.entryAt index))) := by
  have hgap := (log.layout.entry_bounds index).1
  have hparked : ∀ parked : Tailer, parked.next = index →
      parked.position = log.layout.headerAt index → probe log parked =
        .found (log.layout.entryAt index) ⟨log.layout.endAfter (index + 1), index + 1⟩ := by
    intro parked hnext hat
    rw [probe_at_header hsound hframe horder hroom (Nat.le_of_lt hindex) hnext hat, if_pos hindex]
  obtain ⟨fuel, hfuel⟩ := read_fuel hsound tailer
  rw [hfuel]
  by_cases hat : tailer.position = log.layout.headerAt index
  · simp only [advance, hparked tailer h.next hat]
  · have hend : tailer.position = log.layout.endAfter index := h.position.resolve_right hat
    have hprobe := probe_at_end hsound hframe horder hroom (Nat.le_of_lt hindex) h.next hend
      (by omega)
    rw [if_pos (by omega)] at hprobe
    simp only [advance, hprobe, hparked ⟨log.layout.headerAt index, index⟩ rfl rfl]

/-- Behind the last header a read finds nothing. A filler may stand there already, and the cursor
passes it. -/
theorem read_pending {tailer : Tailer} (h : Stands log.layout records tailer) :
    ∃ after, Stands log.layout records after ∧ read log tailer = (after, .ok none) := by
  have hgap := (log.layout.entry_bounds records).1
  have hparked : ∀ parked : Tailer, parked.next = records →
      parked.position = log.layout.headerAt records → probe log parked = .pending := by
    intro parked hnext hat
    rw [probe_at_header hsound hframe horder hroom (Nat.le_refl _) hnext hat,
      if_neg (Nat.lt_irrefl _)]
  obtain ⟨fuel, hfuel⟩ := read_fuel hsound tailer
  rw [hfuel]
  by_cases hat : tailer.position = log.layout.headerAt records
  · refine ⟨tailer, h, ?_⟩
    simp only [advance, hparked tailer h.next hat]
  · have hend : tailer.position = log.layout.endAfter records := h.position.resolve_right hat
    have hprobe := probe_at_end hsound hframe horder hroom (Nat.le_refl _) h.next hend (by omega)
    by_cases hstored : records < fillers
    · rw [if_pos hstored] at hprobe
      refine ⟨⟨log.layout.headerAt records, records⟩, ⟨rfl, .inr rfl⟩, ?_⟩
      simp only [advance, hprobe, hparked ⟨log.layout.headerAt records, records⟩ rfl rfl]
    · rw [if_neg hstored] at hprobe
      refine ⟨tailer, h, ?_⟩
      simp only [advance, hprobe]

theorem read_moment {tailer : Tailer} {index : Nat} (hindex : index ≤ records)
    (h : Stands log.layout index tailer) :
    ∃ after, Stands log.layout (if index < records then index + 1 else index) after ∧
      read log tailer =
        (after, .ok (if index < records then some (log.layout.entryAt index) else none)) := by
  by_cases hmore : index < records
  · simp only [if_pos hmore]
    exact ⟨_, end_stands log.layout (index + 1),
      read_found hsound hframe horder hroom hmore h⟩
  · obtain rfl : index = records := by omega
    simp only [if_neg hmore]
    exact read_pending hsound hframe horder hroom h

/-- A cursor drains the records from where it stands to the last one whose header stands. -/
theorem drain_moment {tailer : Tailer} {index fuel : Nat} (hindex : index ≤ records)
    (h : Stands log.layout index tailer) (hfuel : records - index < fuel) :
    ∃ final, Stands log.layout records final ∧ drain log fuel tailer =
      (final, (List.range' index (records - index)).map log.layout.entryAt, .ok ()) := by
  induction fuel generalizing tailer index with
  | zero => omega
  | succ fuel ih =>
      by_cases hmore : index < records
      · obtain ⟨final, hfinal, hdrain⟩ := ih hmore (end_stands log.layout (index + 1))
          (by omega)
        refine ⟨final, hfinal, ?_⟩
        have hlength : records - index = records - (index + 1) + 1 := by omega
        rw [hlength, List.range'_succ]
        simp only [drain, read_found hsound hframe horder hroom hmore h, hdrain, List.map_cons]
      · have hlast : index = records := by omega
        subst hlast
        obtain ⟨final, hfinal, hread⟩ := read_pending hsound hframe horder hroom h
        refine ⟨final, hfinal, ?_⟩
        simp [drain, hread]

/-- So many reads give so many records, as long as they are there. -/
theorem drain_some (steps : Nat) {tailer : Tailer} {index : Nat} (hsteps : index + steps ≤ records)
    (h : Stands log.layout index tailer) :
    ∃ final, Stands log.layout (index + steps) final ∧ drain log steps tailer =
      (final, (List.range' index steps).map log.layout.entryAt, .ok ()) := by
  induction steps generalizing tailer index with
  | zero => exact ⟨tailer, h, rfl⟩
  | succ steps ih =>
      have hmore : index < records := by omega
      obtain ⟨final, hfinal, hdrain⟩ := ih (by omega) (end_stands log.layout (index + 1))
      rw [show index + 1 + steps = index + (steps + 1) by omega] at hfinal
      refine ⟨final, hfinal, ?_⟩
      simp only [drain, read_found hsound hframe horder hroom hmore h, hdrain, List.range'_succ,
        List.map_cons]

/-- A fresh cursor drains them all: the log's words bound their number. -/
theorem drain_all : ∃ final, Stands log.layout records final ∧
    drain log (log.capacity / 8 + 1) .start =
      (final, (List.range records).map log.layout.entryAt, .ok ()) := by
  have hend := Log.endAfter_le_capacity hsound (Nat.le_trans horder hroom)
  have hmul := log.layout.mul_le_endAfter records
  obtain ⟨final, hfinal, hdrain⟩ := drain_moment hsound hframe horder hroom (Nat.zero_le _)
    (start_stands log.layout) (show records - 0 < log.capacity / 8 + 1 by omega)
  rw [Nat.sub_zero, ← List.range_eq_range'] at hdrain
  exact ⟨final, hfinal, hdrain⟩

/-- Reading on passes so many records, or stops behind the last one. -/
theorem readUntil_moment (target steps : Nat) {tailer : Tailer} {index : Nat}
    (hindex : index ≤ records) (h : Stands log.layout index tailer) :
    ∃ final, Stands log.layout (min (index + steps) records) final ∧
      readUntil log target steps tailer =
        (final, if index + steps ≤ records then .ok ()
          else .error (.of (.notCommitted log.name target records))) := by
  induction steps generalizing tailer index with
  | zero =>
      refine ⟨tailer, ?_, ?_⟩
      · rwa [Nat.add_zero, Nat.min_eq_left hindex]
      · simp [readUntil, hindex]
  | succ steps ih =>
      by_cases hmore : index < records
      · obtain ⟨final, hfinal, hrest⟩ := ih hmore (end_stands log.layout (index + 1))
        have hsum : index + 1 + steps = index + (steps + 1) := by omega
        rw [hsum] at hfinal hrest
        exact ⟨final, hfinal, by
          simp only [readUntil, read_found hsound hframe horder hroom hmore h, hrest]⟩
      · have hlast : index = records := by omega
        subst hlast
        obtain ⟨final, hfinal, hread⟩ := read_pending hsound hframe horder hroom h
        refine ⟨final, ?_, ?_⟩
        · rwa [Nat.min_eq_right (by omega)]
        · rw [if_neg (by omega)]
          simp only [readUntil, hread, hfinal.next]

/-- Seeking ends in front of the record asked for, or behind the last one if it is not there. -/
theorem seek_moment (target : Nat) {tailer : Tailer} {index : Nat} (hindex : index ≤ records)
    (h : Stands log.layout index tailer) :
    ∃ final, Stands log.layout (min target records) final ∧
      seek log target tailer =
        (final, if target ≤ records then .ok ()
          else .error (.of (.notCommitted log.name target records))) := by
  by_cases hback : target < index
  · obtain ⟨final, hfinal, hseek⟩ := readUntil_moment hsound hframe horder hroom target target
      (Nat.zero_le _) (start_stands log.layout)
    rw [Nat.zero_add] at hfinal hseek
    refine ⟨final, hfinal, ?_⟩
    rw [seek, if_pos (by rw [h.next]; exact hback)]
    exact hseek
  · obtain ⟨final, hfinal, hseek⟩ := readUntil_moment hsound hframe horder hroom target
      (target - index) hindex h
    rw [show index + (target - index) = target by omega] at hfinal hseek
    refine ⟨final, hfinal, ?_⟩
    rw [seek, if_neg (by rw [h.next]; exact hback)]
    simp only [h.next]
    exact hseek

end Moment

/-! ### Between two operations -/

section Framed

variable {log : Log} {count : Nat} (hsound : log.Sound) (hframe : log.Framed count count)
  (hroom : count ≤ log.room)

include hsound hframe hroom

/-- A second load is all that it takes: at the next record's own header no filler follows. -/
theorem advance_stands (fuel : Nat) {tailer : Tailer} {index : Nat} (hindex : index ≤ count)
    (h : Stands log.layout index tailer) :
    advance log (fuel + 2) tailer = advance log 2 tailer := by
  have hgap := (log.layout.entry_bounds index).1
  have hheader : ∀ parked : Tailer, parked.next = index →
      parked.position = log.layout.headerAt index → ∀ after,
        probe log parked ≠ .passed after := by
    intro parked hnext hat after
    rw [probe_at_header hsound hframe (Nat.le_refl _) hroom hindex hnext hat]
    split <;> simp
  by_cases hat : tailer.position = log.layout.headerAt index
  · have hnone := hheader tailer h.next hat
    simp only [advance]
    split <;> simp_all
  · have hend : tailer.position = log.layout.endAfter index := h.position.resolve_right hat
    have hprobe := probe_at_end hsound hframe (Nat.le_refl _) hroom hindex h.next hend (by omega)
    have hnone := hheader ⟨log.layout.headerAt index, index⟩ rfl rfl
    by_cases hstored : index < count
    · rw [if_pos hstored] at hprobe
      simp only [advance, hprobe]
      split <;> simp_all
    · rw [if_neg hstored] at hprobe
      simp only [advance, hprobe]

theorem read_two_loads {tailer : Tailer} {index : Nat} (hindex : index ≤ count)
    (h : Stands log.layout index tailer) : read log tailer = advance log 2 tailer := by
  obtain ⟨fuel, hfuel⟩ := read_fuel hsound tailer
  rw [hfuel]
  exact advance_stands hsound hframe hroom fuel hindex h

theorem read_committed {tailer : Tailer} {index : Nat} (hindex : index < count)
    (h : Stands log.layout index tailer) :
    read log tailer =
      (⟨log.layout.endAfter (index + 1), index + 1⟩, .ok (some (log.layout.entryAt index))) :=
  read_found hsound hframe (Nat.le_refl _) hroom hindex h

/-- Finding nothing leaves the cursor where it stands. -/
theorem read_nothing {tailer : Tailer} (h : Stands log.layout count tailer) :
    read log tailer = (tailer, .ok none) := by
  have hgap := (log.layout.entry_bounds count).1
  obtain ⟨fuel, hfuel⟩ := read_fuel hsound tailer
  rw [hfuel]
  by_cases hat : tailer.position = log.layout.headerAt count
  · have hprobe := probe_at_header hsound hframe (Nat.le_refl _) hroom (Nat.le_refl _) h.next hat
    rw [if_neg (Nat.lt_irrefl _)] at hprobe
    simp only [advance, hprobe]
  · have hend : tailer.position = log.layout.endAfter count := h.position.resolve_right hat
    have hprobe := probe_at_end hsound hframe (Nat.le_refl _) hroom (Nat.le_refl _) h.next hend
      (by omega)
    rw [if_neg (Nat.lt_irrefl _)] at hprobe
    simp only [advance, hprobe]

/-- A read answers the record in front of the cursor, once it is committed. -/
theorem read_stands {tailer : Tailer} {index : Nat} (hindex : index ≤ count)
    (h : Stands log.layout index tailer) :
    read log tailer =
      if index < count then
        (⟨log.layout.endAfter (index + 1), index + 1⟩, .ok (some (log.layout.entryAt index)))
      else (tailer, .ok none) := by
  by_cases hmore : index < count
  · rw [if_pos hmore]
    exact read_committed hsound hframe hroom hmore h
  · obtain rfl : index = count := by omega
    rw [if_neg hmore]
    exact read_nothing hsound hframe hroom h

/-- The words that a read loads: the header of the record it stands in front of, and before that
the filler in front of the header if it has not been passed. -/
theorem loads_stands (fuel : Nat) {tailer : Tailer} {index : Nat} (hindex : index ≤ count)
    (h : Stands log.layout index tailer) :
    (loads log fuel tailer).length ≤ 2 ∧ ∀ position ∈ loads log fuel tailer,
      position + 8 ≤ log.capacity ∧ ∃ place : Layout.Place, place.Real log.layout ∧
        (place = .filler index ∨ place = .header index) ∧ place.position log.layout = position := by
  have hgap := (log.layout.entry_bounds index).1
  -- a load at the header ends the read
  have hparked : ∀ (fuel : Nat) (parked : Tailer), parked.next = index →
      parked.position = log.layout.headerAt index → (loads log fuel parked).length ≤ 1 ∧
        ∀ position ∈ loads log fuel parked, position + 8 ≤ log.capacity ∧
          position = log.layout.headerAt index := by
    intro fuel parked hnext hat
    have hprobe := probe_at_header hsound hframe (Nat.le_refl _) hroom hindex hnext hat
    cases fuel with
    | zero => simp [loads]
    | succ fuel =>
        simp only [loads, hprobe, Log.headerBytes]
        split
        · simp
        · rename_i hinside
          split
          · rename_i hpassed
            split at hpassed <;> cases hpassed
          · simp only [List.length_singleton, Nat.le_refl, List.mem_singleton, forall_eq, hat,
              and_true, true_and]
            omega
  by_cases hat : tailer.position = log.layout.headerAt index
  · obtain ⟨hlength, hloads⟩ := hparked fuel tailer h.next hat
    refine ⟨by omega, fun position hposition => ?_⟩
    obtain ⟨hinside, heq⟩ := hloads position hposition
    exact ⟨hinside, .header index, trivial, .inr rfl, heq.symm⟩
  · have hend : tailer.position = log.layout.endAfter index := h.position.resolve_right hat
    have hprobe := probe_at_end hsound hframe (Nat.le_refl _) hroom hindex h.next hend (by omega)
    have hreal : (Layout.Place.filler index).Real log.layout := by
      simp only [Layout.Place.Real]
      omega
    cases fuel with
    | zero => simp [loads]
    | succ fuel =>
        simp only [loads, hprobe, Log.headerBytes]
        split
        · simp
        · rename_i hinside
          have hfirst : tailer.position + 8 ≤ log.capacity ∧ ∃ place : Layout.Place,
              place.Real log.layout ∧ (place = .filler index ∨ place = .header index) ∧
                place.position log.layout = tailer.position :=
            ⟨by omega, .filler index, hreal, .inl rfl, hend.symm⟩
          by_cases hstored : index < count
          · obtain ⟨hlength, hloads⟩ := hparked fuel ⟨log.layout.headerAt index, index⟩ rfl rfl
            simp only [if_pos hstored, List.length_cons, List.mem_cons]
            refine ⟨by omega, ?_⟩
            rintro position (rfl | hposition)
            · exact hfirst
            · obtain ⟨hinside, heq⟩ := hloads position hposition
              exact ⟨hinside, .header index, trivial, .inr rfl, heq.symm⟩
          · simp only [if_neg hstored, List.length_singleton, List.mem_singleton]
            refine ⟨by omega, ?_⟩
            rintro position rfl
            exact hfirst

/-- Every read of a sequence of reads starts in front of some record. -/
theorem stops_stand (reads : Nat) {tailer : Tailer} {index : Nat} (hindex : index ≤ count)
    (h : Stands log.layout index tailer) :
    ∀ stop ∈ stops log reads tailer, ∃ other ≤ count, Stands log.layout other stop := by
  induction reads generalizing tailer index with
  | zero => simp [stops]
  | succ reads ih =>
      intro stop hstop
      simp only [stops, List.mem_cons] at hstop
      rcases hstop with rfl | hstop
      · exact ⟨index, hindex, h⟩
      · by_cases hmore : index < count
        · simp only [read_committed hsound hframe hroom hmore h] at hstop
          exact ih hmore (end_stands log.layout (index + 1)) stop hstop
        · have hlast : index = count := by omega
          subst hlast
          simp [read_nothing hsound hframe hroom h] at hstop

theorem drain_stands {tailer : Tailer} {index fuel : Nat} (hindex : index ≤ count)
    (h : Stands log.layout index tailer) (hfuel : count - index < fuel) :
    ∃ final, Stands log.layout count final ∧ drain log fuel tailer =
      (final, (List.range' index (count - index)).map log.layout.entryAt, .ok ()) :=
  drain_moment hsound hframe (Nat.le_refl _) hroom hindex h hfuel

/-- The committed records in order, as a fresh cursor finds them. -/
theorem entries_eq :
    log.entries = (List.range count).map log.layout.entryAt := by
  obtain ⟨final, -, hdrain⟩ := drain_all hsound hframe (Nat.le_refl _) hroom
  rw [Log.entries, hdrain]

/-- Seeking ends in front of the record asked for, or behind the last one if it is not there. -/
theorem seek_stands (target : Nat) {tailer : Tailer} {index : Nat} (hindex : index ≤ count)
    (h : Stands log.layout index tailer) :
    ∃ final, Stands log.layout (min target count) final ∧
      seek log target tailer =
        (final, if target ≤ count then .ok ()
          else .error (.of (.notCommitted log.name target count))) :=
  seek_moment hsound hframe (Nat.le_refl _) hroom target hindex h

end Framed

end Tailer

end GatedPipeline
