import GatedPipeline.Proofs.Log.Contents
import GatedPipeline.Proofs.Storage.Paving

/-!
Creating a log, where it fails. A size that overflows is noticed before any file is touched, and a
file that cannot be made leaves no trace. After that the file is there. It is given its size, which
fails for every size between that of the largest file and the largest word and whenever the system
refuses it, and then it is mapped, which the system may refuse as well. A failure at one of these
two steps leaves the file behind, empty or in its full size, and it stands in the way of every
later log of its name.
-/

namespace GatedPipeline

namespace Storage

/-- The path of a new file leads somewhere, and nothing stands there. -/
def Free (storage : Storage) (path : String) : Prop :=
  ∃ place, storage.resolve path = .ok place ∧ storage.find place = none

section Free

variable {storage : Storage} {path : String}

theorem createNew_free {place : Place} (hresolve : storage.resolve path = .ok place)
    (hnone : storage.find place = none) (node : Node) :
    storage.createNew path node = .ok (storage.put place node) := by
  simp [createNew, hresolve, ok_bind, hnone]
  rfl

theorem createNew_taken (hthere : storage.isThere path) (node : Node) :
    storage.createNew path node = .error .taken := by
  simp only [isThere] at hthere
  split at hthere
  · cases hthere
  · rename_i place hresolve
    simp only [createNew, hresolve, ok_bind, hthere, if_true]
    rfl

theorem not_free_of_isThere (hthere : storage.isThere path) : ¬ storage.Free path := by
  rintro ⟨place, hresolve, hnone⟩
  simp [isThere, hresolve, hnone] at hthere

end Free

end Storage

namespace Log

def fileOf (directory name : String) : String := Storage.join directory (name ++ ".log")

/-! ### Sizes -/

theorem capacityFor_fits {bytes : Nat} (hsmall : bytes ≤ wordLimit - pageBytes) :
    capacityFor bytes = .ok ((max bytes pageBytes + pageBytes - 1) / pageBytes * pageBytes) :=
  Checked.mul_ok (by simp only [pageBytes, wordLimit] at *; omega)

theorem capacityFor_overflow {bytes : Nat} (hlarge : wordLimit - pageBytes < bytes) :
    capacityFor bytes = .error .multiplyOverflow :=
  Checked.mul_over (by simp only [pageBytes, wordLimit] at *; omega)

/-- The numbers of bytes that a file can be given, rounded up to whole pages. -/
theorem capacity_sizable_iff {bytes capacity : Nat} (hcapacity : capacityFor bytes = .ok capacity) :
    capacity < signedLimit ↔ bytes ≤ signedLimit - pageBytes := by
  have hsmall : bytes ≤ wordLimit - pageBytes := Nat.le_of_not_lt fun hlarge => by
    rw [capacityFor_overflow hlarge] at hcapacity
    cases hcapacity
  obtain rfl := Except.ok.inj ((capacityFor_fits hsmall).symm.trans hcapacity)
  simp only [signedLimit, wordLimit, pageBytes] at *
  omega

/-! ### The ways to fail -/

/-- The log's file is made: the size in whole pages is a word, the path is free, and the system
opens the file. -/
def Made (storage : Storage) (directory name : String) (bytes : Nat) (backing : Storage.Backing) :
    Prop :=
  storage.Free (fileOf directory name) ∧ bytes ≤ wordLimit - pageBytes ∧ backing.opening = none

/-- How creating a log fails and what each failure leaves. The size in whole pages can be beyond the
words, and the file can fail to be made. Both leave the files as they were. A file that was made at
a place where nothing stood can then fail to be sized or to be mapped, which leaves it there, empty
in the first case and of full size in the second. -/
inductive Refused (storage : Storage) (directory name : String) (bytes : Nat)
    (backing : Storage.Backing) : Storage → Problem → Prop
  | overflow (large : wordLimit - pageBytes < bytes) :
      Refused storage directory name bytes backing storage (.broken .multiplyOverflow)
  | unmade (refusal : Storage.Refusal) (missing : ¬ Made storage directory name bytes backing)
      (refused : backing.grant (storage.createNew (fileOf directory name) (.log 0)) =
        .error refusal) :
      Refused storage directory name bytes backing storage
        (.failed ⟨[.creatingLog (fileOf directory name)], .storage refusal⟩)
  | unsized (capacity : Nat) (place : Storage.Place) (refusal : Storage.Refusal)
      (made : Made storage directory name bytes backing)
      (leads : storage.resolve (fileOf directory name) = .ok place)
      (free : storage.find place = none) (rounded : capacityFor bytes = .ok capacity)
      (unsizable : signedLimit ≤ capacity ∧ refusal = .sizeOutOfRange ∨
        capacity < signedLimit ∧ backing.sizing = some refusal) :
      Refused storage directory name bytes backing (storage.put place (.log 0))
        (.failed ⟨[.sizingLog (fileOf directory name) capacity], .storage refusal⟩)
  | unmapped (capacity : Nat) (place : Storage.Place) (problem : Problem)
      (made : Made storage directory name bytes backing)
      (leads : storage.resolve (fileOf directory name) = .ok place)
      (free : storage.find place = none) (rounded : capacityFor bytes = .ok capacity)
      (sizable : capacity < signedLimit) (sized : backing.sizing = none)
      (unmappable : backing.mapping = .null ∧ problem = .of .logAtNull ∨
        ∃ refusal, backing.mapping = .refused refusal ∧ problem =
          .failed ⟨[.mappingLog (fileOf directory name)], .storage refusal⟩) :
      Refused storage directory name bytes backing (storage.put place (.log capacity)) problem

section Create

variable {storage after : Storage} {directory name : String} {layout : Layout} {bytes : Nat}
  {backing : Storage.Backing} {problem : Problem}

/-- A log cannot be created in these ways only. -/
theorem create_error
    (h : create storage directory name layout bytes backing = (after, .error problem)) :
    Refused storage directory name bytes backing after problem := by
  by_cases hlarge : wordLimit - pageBytes < bytes
  · simp only [create, capacityFor_overflow hlarge] at h
    cases h
    exact .overflow hlarge
  · have hsmall := Nat.le_of_not_lt hlarge
    have hcapacity := capacityFor_fits hsmall
    simp only [create, hcapacity] at h
    split at h
    · rename_i refusal hrefused
      cases h
      refine .unmade refusal ?_ hrefused
      rintro ⟨⟨place, hresolve, hnone⟩, -, hopening⟩
      simp only [Storage.Backing.grant, hopening] at hrefused
      rw [← fileOf, Storage.createNew_free hresolve hnone] at hrefused
      cases hrefused
    · rename_i created hgranted
      obtain ⟨hopening, hcreated⟩ := Storage.Backing.grant_ok hgranted
      obtain ⟨place, hresolve, hnone, rfl⟩ := Storage.createNew_ok hcreated
      have hmade : Made storage directory name bytes backing :=
        ⟨⟨place, hresolve, hnone⟩, hsmall, hopening⟩
      -- the path still leads to the file, so that only its size and its mapping can be refused
      have hleads := (Storage.extends_put hnone (.log 0)).resolve hresolve
      split at h
      · rename_i refusal hsized
        cases h
        exact .unsized _ place refusal hmade hresolve hnone hcapacity
          (Storage.resize_error hleads hsized)
      · rename_i sized hsized
        obtain ⟨hsizing, reached, hreached, hsizable, rfl⟩ := Storage.resize_ok hsized
        obtain rfl := Except.ok.inj (hleads.symm.trans hreached)
        rw [Storage.put_put] at h
        split at h
        · rename_i refusal hmapping
          cases h
          exact .unmapped _ place _ hmade hresolve hnone hcapacity hsizable hsizing
            (.inr ⟨refusal, hmapping, rfl⟩)
        · rename_i hmapping
          cases h
          exact .unmapped _ place _ hmade hresolve hnone hcapacity hsizable hsizing
            (.inl ⟨hmapping, rfl⟩)
        · cases h

/-- A failure leaves the files as they were, or one file more. -/
theorem Refused.left (h : Refused storage directory name bytes backing after problem) :
    after = storage ∨ ∃ place size, storage.resolve (fileOf directory name) = .ok place ∧
      storage.find place = none ∧ after = storage.put place (.log size) := by
  cases h with
  | overflow | unmade => exact .inl rfl
  | unsized _ place _ _ hresolve hnone => exact .inr ⟨place, 0, hresolve, hnone, rfl⟩
  | unmapped capacity place _ _ hresolve hnone => exact .inr ⟨place, capacity, hresolve, hnone, rfl⟩

/-- A log of that name can be created with so many bytes, as the system backs its file. -/
def Creates (storage : Storage) (directory name : String) (layout : Layout) (bytes : Nat)
    (backing : Storage.Backing) : Prop :=
  ∃ made log, create storage directory name layout bytes backing = (made, .ok log)

/-- A log can be created where no file of its name stands, in all sizes that a file can have, on a
system that refuses nothing of its own. -/
theorem creates_iff : Creates storage directory name layout bytes backing ↔
    storage.Free (fileOf directory name) ∧ bytes ≤ signedLimit - pageBytes ∧ backing = .sound := by
  constructor
  · rintro ⟨made, log, h⟩
    obtain ⟨hsound, capacity, created, hcapacity, hcreated, hsized, -⟩ := create_ok h
    obtain ⟨place, hresolve, hnone, -⟩ := Storage.createNew_ok hcreated
    obtain ⟨-, -, -, hsizable, -⟩ := Storage.resize_ok hsized
    exact ⟨⟨place, hresolve, hnone⟩,
      (capacity_sizable_iff hcapacity).mp hsizable, hsound⟩
  · rintro ⟨hfree, hbytes, rfl⟩
    rcases hcreate : create storage directory name layout bytes with ⟨after, problem | log⟩
    · exfalso
      cases create_error hcreate with
      | overflow hlarge =>
          simp only [signedLimit, wordLimit, pageBytes] at *
          omega
      | unmade _ hmissing =>
          refine hmissing ⟨hfree, ?_, rfl⟩
          simp only [signedLimit, wordLimit, pageBytes] at *
          omega
      | unsized _ _ _ _ _ _ hcapacity hunsizable =>
          rcases hunsizable with ⟨hlarge, -⟩ | ⟨-, hsizing⟩
          · exact absurd ((capacity_sizable_iff hcapacity).mpr hbytes) (Int.not_lt.mpr hlarge)
          · cases hsizing
      | unmapped _ _ _ _ _ _ _ _ _ hunmappable =>
          obtain ⟨hmapping, -⟩ | ⟨_, hmapping, -⟩ := hunmappable <;> cases hmapping
    · exact ⟨after, log, hcreate⟩

/-- Where a file of its name stands, no log can be created. -/
theorem create_taken (hthere : storage.isThere (fileOf directory name))
    (hsmall : bytes ≤ wordLimit - pageBytes) (hopening : backing.opening = none) :
    create storage directory name layout bytes backing =
      (storage, .error (.failed ⟨[.creatingLog (fileOf directory name)], .storage .taken⟩)) := by
  simp only [fileOf] at hthere ⊢
  simp only [create, capacityFor_fits hsmall, Storage.createNew_taken hthere,
    Storage.Backing.grant, hopening]

/-- What a log that could not be created leaves. All files and all that they hold are as before
unless the log's own file was made, and a file of that name that stood there is never touched. By
`stranded` the file that was made stays at a place where nothing stood, with its full size if it
could be sized and empty otherwise, and nothing else is changed. That file is then in the way of
every log of the same name. By `retried` this is the only case in which a log that could have been
created before the failed attempt cannot be created after it. -/
structure Failed (storage : Storage) (directory name : String) (bytes : Nat)
    (backing : Storage.Backing) (after : Storage) : Prop where
  unchanged : after = storage ↔ ¬ Made storage directory name bytes backing
  taken : storage.isThere (fileOf directory name) → after = storage
  stranded : Made storage directory name bytes backing → ∃ place capacity,
    storage.resolve (fileOf directory name) = .ok place ∧ storage.find place = none ∧
      capacityFor bytes = .ok capacity ∧ after = storage.put place
        (.log (if capacity < signedLimit ∧ backing.sizing = none then capacity else 0))
  blocked : Made storage directory name bytes backing → ∀ layout bytes' backing',
    bytes' ≤ wordLimit - pageBytes → backing'.opening = none →
      create after directory name layout bytes' backing' =
        (after, .error (.failed ⟨[.creatingLog (fileOf directory name)], .storage .taken⟩))
  retried : ∀ layout bytes' backing', Creates storage directory name layout bytes' backing' →
    (Creates after directory name layout bytes' backing' ↔
      ¬ Made storage directory name bytes backing)

/-- A failure that leaves the files as they were, before the log's file was made. -/
private theorem Failed.of_unchanged (hnot : ¬ Made storage directory name bytes backing) :
    Failed storage directory name bytes backing storage where
  unchanged := iff_of_true rfl hnot
  taken _ := rfl
  stranded hmade := absurd hmade hnot
  blocked hmade := absurd hmade hnot
  retried _ _ _ hcreates := iff_of_true hcreates hnot

/-- A failure after the log's file was made leaves a file of some size at its place. -/
private theorem Failed.of_made (hmade : Made storage directory name bytes backing)
    {place : Storage.Place} (hresolve : storage.resolve (fileOf directory name) = .ok place)
    (hnone : storage.find place = none) {capacity : Nat}
    (hcapacity : capacityFor bytes = .ok capacity) {left : Nat}
    (hleft : left = if capacity < signedLimit ∧ backing.sizing = none then capacity else 0) :
    Failed storage directory name bytes backing (storage.put place (.log left)) := by
  have hfound : (storage.put place (.log left)).find place = some (.log left) := by
    rw [Storage.find_put storage (Storage.place_ne_root hnone), if_pos rfl]
  have hthere : (storage.put place (.log left)).isThere (fileOf directory name) := by
    simp [Storage.isThere, (Storage.extends_put hnone _).resolve hresolve, hfound]
  constructor
  case unchanged =>
    refine iff_of_false (fun hsame => ?_) (absurd hmade)
    rw [hsame, hnone] at hfound
    cases hfound
  case taken => exact fun htaken => absurd hmade.1 (Storage.not_free_of_isThere htaken)
  case stranded => exact fun _ => ⟨place, capacity, hresolve, hnone, hcapacity, by rw [hleft]⟩
  case blocked => exact fun _ _ _ _ hsmall hopening => create_taken hthere hsmall hopening
  case retried =>
    refine fun _ _ _ _ => iff_of_false (fun hcreates => ?_) (absurd hmade)
    exact Storage.not_free_of_isThere hthere (creates_iff.mp hcreates).1

/-- A failed attempt to create a log leaves everything as it was exactly if it did not get as far as
the log's file. Otherwise it leaves that file, and no log of its name can be created. -/
theorem create_failed
    (h : create storage directory name layout bytes backing = (after, .error problem)) :
    Failed storage directory name bytes backing after := by
  cases create_error h with
  | overflow hlarge => exact .of_unchanged fun hmade => absurd hmade.2.1 (Nat.not_le.mpr hlarge)
  | unmade _ hmissing => exact .of_unchanged hmissing
  | unsized _ _ _ hmade hresolve hnone hcapacity hunsizable =>
      refine .of_made hmade hresolve hnone hcapacity (if_neg ?_).symm
      rintro ⟨hsizable, hsizing⟩
      rcases hunsizable with ⟨hlarge, -⟩ | ⟨-, hrefused⟩
      · exact absurd hsizable (Int.not_lt.mpr hlarge)
      · rw [hsizing] at hrefused
        cases hrefused
  | unmapped _ _ _ hmade hresolve hnone hcapacity hsizable hsizing =>
      exact .of_made hmade hresolve hnone hcapacity (if_pos ⟨hsizable, hsizing⟩).symm

end Create

/-- A size that overflows when it is rounded up: no file is made, and a log of the same name can be
created afterwards. -/
theorem create_failed_overflow : ∃ after problem,
    create .empty "/" "main" ⟨1⟩ 18446744073709551615 = (after, .error problem) ∧
      after = .empty ∧ Creates after "/" "main" ⟨1⟩ 4096 .sound := by
  have hcreate : create .empty "/" "main" ⟨1⟩ 18446744073709551615 =
      (.empty, .error (.broken .multiplyOverflow)) := rfl
  have hfailed := create_failed hcreate
  have hnot : ¬ Made .empty "/" "main" 18446744073709551615 .sound :=
    fun hmade => absurd hmade.2.1 (by decide)
  exact ⟨_, _, hcreate, hfailed.unchanged.mpr hnot,
    (hfailed.retried ⟨1⟩ 4096 .sound ⟨_, _, rfl⟩).mpr hnot⟩

/-- A log of `2 ^ 63` bytes is not created, but its file is, and then no log of that name. -/
theorem create_failed_stranded : ∃ after problem,
    create .empty "/" "other" ⟨1⟩ 9223372036854775808 = (after, .error problem) ∧
      Storage.empty.isThere "/other.log" = false ∧ after.isThere "/other.log" = true ∧
      Creates .empty "/" "other" ⟨1⟩ 4096 .sound ∧
        ¬ Creates after "/" "other" ⟨1⟩ 4096 .sound := by
  refine ⟨_, _, rfl, rfl, rfl, ⟨_, _, rfl⟩, ?_⟩
  rintro ⟨made, log, h⟩
  cases h

end Log

end GatedPipeline
