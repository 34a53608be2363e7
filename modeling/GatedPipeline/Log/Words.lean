import GatedPipeline.Word

/-!
The words of a log file. A file starts out as zeros and only the part in front of its last nonzero
word is kept, so a large file costs nothing until it is written.
-/

namespace GatedPipeline

/-- Words by number; those that are not kept are zero. -/
structure Words where
  kept : Array Word
  deriving DecidableEq, Repr

namespace Words

def zeros : Words := ⟨#[]⟩

def get (words : Words) (index : Nat) : Word := words.kept.getD index 0

def set (words : Words) (index : Nat) (value : Word) : Words :=
  match words with
  | ⟨kept⟩ =>
      if index < kept.size then ⟨kept.setIfInBounds index value⟩
      else if value = 0 then ⟨kept⟩
      else ⟨(kept ++ Array.replicate (index - kept.size) 0).push value⟩

def slice (words : Words) (start count : Nat) : List Word :=
  (List.range count).map fun k => words.get (start + k)

def nonzero (words : Words) : List (Nat × Word) :=
  (words.kept.toList.zipIdx.filter (·.1 ≠ 0)).map fun pair => (pair.2, pair.1)

theorem get_zeros (index : Nat) : zeros.get index = 0 := by simp [zeros, get]

theorem get_set (words : Words) (index other : Nat) (value : Word) :
    (words.set index value).get other = if other = index then value else words.get other := by
  obtain ⟨kept⟩ := words
  simp only [set]
  split
  · by_cases same : other = index
    · subst same; simp_all [get]
    · simp [get, Array.getD_eq_getD_getElem?, Ne.symm same, same]
  · split
    · by_cases same : other = index
      · subst same; simp_all [get]
      · simp [same]
    · simp only [get, Array.getD_eq_getD_getElem?, Array.getElem?_push, Array.getElem?_append,
        Array.getElem?_replicate, Array.size_append, Array.size_replicate]
      rw [show kept.size + (index - kept.size) = index by omega]
      by_cases same : other = index
      · simp [same]
      · rw [if_neg same, if_neg same]
        split
        · rfl
        · rw [Array.getElem?_eq_none (by omega)]
          split <;> rfl

end Words

end GatedPipeline
