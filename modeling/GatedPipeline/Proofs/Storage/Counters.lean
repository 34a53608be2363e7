import GatedPipeline.Proofs.Storage.Tree

/-!
The counters in the tree. Every file that holds a counter names one of its own, so opening a counter
and setting one change the value at one place and at no other.
-/

namespace GatedPipeline.Storage

/-- Every counter that a file names is kept, and no two files name the same. -/
structure Numbered (storage : Storage) : Prop where
  kept : ∀ {place : Place} {cell : Nat}, storage.find place = some (.counter cell) →
    cell < storage.cells.size
  own : ∀ {one other : Place} {cell : Nat}, storage.find one = some (.counter cell) →
    storage.find other = some (.counter cell) → one = other

theorem empty_numbered : empty.Numbered := by
  have hnone : ∀ place cell, empty.find place ≠ some (.counter cell) := by
    intro place cell
    simp only [find, empty]
    split <;> simp
  exact ⟨fun h => absurd h (hnone _ _), fun h => absurd h (hnone _ _)⟩

theorem counter_setCounter {storage : Storage} {number : Nat} (h : number < storage.cells.size)
    (content : Option Int) (other : Nat) : (storage.setCounter number content).counter other =
      if other = number then content else storage.counter other := by
  by_cases hsame : other = number
  · subst hsame
    simp [counter, setCounter, h]
  · simp [counter, setCounter, hsame, Ne.symm hsame]

theorem cell_setCell {storage : Storage} {number : Nat} (h : number < storage.cells.size)
    (value : Int) (other : Nat) : (storage.setCell number value).cell other =
      if other = number then value else storage.cell other := by
  rw [cell, setCell, counter_setCounter h]
  split <;> rfl

/-- Only what a counter is set to last counts. -/
theorem setCounter_setCounter (storage : Storage) (number : Nat) (first last : Option Int) :
    (storage.setCounter number first).setCounter number last = storage.setCounter number last := by
  simp [setCounter]

theorem size_setCounter (storage : Storage) (number : Nat) (content : Option Int) :
    (storage.setCounter number content).cells.size = storage.cells.size :=
  Array.size_setIfInBounds

/-- Setting a counter changes no path. -/
theorem resolve_setCounter (storage : Storage) (number : Nat) (content : Option Int)
    (path : String) : (storage.setCounter number content).resolve path = storage.resolve path := by
  have hfind : ∀ place, (storage.setCounter number content).find place = storage.find place :=
    fun _ => rfl
  have hhome : (storage.setCounter number content).home = storage.home := rfl
  simp only [resolve, walk_congr hfind, hhome]

theorem Numbered.setCounter {storage : Storage} (h : storage.Numbered) (number : Nat)
    (content : Option Int) : (storage.setCounter number content).Numbered :=
  ⟨fun hfound => (storage.size_setCounter number content).symm ▸ h.kept hfound,
    fun hone hother => h.own hone hother⟩

/-- What is no counter changes no counter. -/
theorem Numbered.put_other {storage : Storage} (h : storage.Numbered) {place : Place}
    (hplace : place ≠ []) {node : Node} (hnode : ∀ cell, node ≠ .counter cell) :
    (storage.put place node).Numbered := by
  have hold : ∀ {other : Place} {cell : Nat},
      (storage.put place node).find other = some (.counter cell) →
        storage.find other = some (.counter cell) := by
    intro other cell hfound
    rw [find_put storage hplace] at hfound
    split at hfound
    · cases hfound
      exact absurd rfl (hnode cell)
    · exact hfound
  exact ⟨fun hfound => h.kept (hold hfound), fun hone hother => h.own (hold hone) (hold hother)⟩

theorem Numbered.makeDirectory {storage after : Storage} {path : String} (h : storage.Numbered)
    (hmake : storage.makeDirectory path = .ok after) : after.Numbered := by
  obtain ⟨place, -, hnone, rfl⟩ := makeDirectory_ok hmake
  exact h.put_other (place_ne_root hnone) nofun

/-- What opening the counter at a place leaves. A counter that stood there goes on as the same one,
with the new content, and all other places and counters are as they were. -/
structure Counted (storage : Storage) (place : Place) (content : Option Int) (after : Storage)
    (cell : Nat) : Prop where
  numbered : after.Numbered
  home : after.home = storage.home
  here : after.find place = some (.counter cell)
  others : ∀ other, other ≠ place → after.find other = storage.find other
  same : ∀ number, storage.find place = some (.counter number) → number = cell
  content : after.counter cell = content
  contents : ∀ other number, other ≠ place → storage.find other = some (.counter number) →
    after.counter number = storage.counter number

/-- A counter that stands there is set. -/
private theorem Numbered.reset {storage : Storage} (h : storage.Numbered) {place : Place}
    {cell : Nat} (hfound : storage.find place = some (.counter cell)) (content : Option Int) :
    Counted storage place content (storage.setCounter cell content) cell := by
  have hcell := counter_setCounter (h.kept hfound) content
  refine ⟨h.setCounter cell content, rfl, hfound, fun _ _ => rfl, fun number hnumber => ?_, ?_, ?_⟩
  · rw [hfound] at hnumber
    cases hnumber
    rfl
  · rw [hcell, if_pos rfl]
  · intro other number hother hnumber
    rw [hcell, if_neg]
    rintro rfl
    exact hother (h.own hnumber hfound)

/-- Where none stands one is made. -/
private theorem Numbered.grow {storage : Storage} (h : storage.Numbered) {place : Place}
    (hplace : place ≠ []) (hnone : ∀ cell, storage.find place ≠ some (.counter cell))
    (content : Option Int) : Counted storage place content
      ({ storage with cells := storage.cells.push content }.put place
        (.counter storage.cells.size)) storage.cells.size := by
  have hfind := find_put { storage with cells := storage.cells.push content } hplace
    (.counter storage.cells.size)
  have hold : ∀ {other : Place} {cell : Nat}, other ≠ place →
      ({ storage with cells := storage.cells.push content }.put place
        (.counter storage.cells.size)).find other = some (.counter cell) →
      storage.find other = some (.counter cell) := by
    intro other cell hother hfound
    rw [hfind, if_neg hother] at hfound
    exact hfound
  have hhere : ∀ {cell : Nat}, ({ storage with cells := storage.cells.push content }.put place
      (.counter storage.cells.size)).find place = some (.counter cell) →
      cell = storage.cells.size := by
    intro cell hfound
    rw [hfind, if_pos rfl] at hfound
    cases hfound
    rfl
  refine ⟨⟨?_, ?_⟩, rfl, ?_, ?_, fun number hnumber => absurd hnumber (hnone number), ?_, ?_⟩
  · intro other cell hfound
    have hsize : cell < storage.cells.size + 1 := by
      by_cases hother : other = place
      · subst hother
        rw [hhere hfound]
        exact Nat.lt_succ_self _
      · exact Nat.lt_succ_of_lt (h.kept (hold hother hfound))
    simpa [put] using hsize
  · intro one other cell hone hother
    by_cases hone' : one = place
    · by_cases hother' : other = place
      · rw [hone', hother']
      · subst hone'
        have hlt := h.kept (hold hother' hother)
        have hcell := hhere hone
        omega
    · by_cases hother' : other = place
      · subst hother'
        have hlt := h.kept (hold hone' hone)
        have hcell := hhere hother
        omega
      · exact h.own (hold hone' hone) (hold hother' hother)
  · rw [hfind, if_pos rfl]
  · intro other hother
    rw [hfind, if_neg hother]
    rfl
  · simp [counter, put]
  · intro other number _ hnumber
    have hlt := h.kept hnumber
    have hne : number ≠ storage.cells.size := by omega
    simp [counter, put, Array.getElem?_push, hne]

theorem Counted.directories {storage after : Storage} {place : Place} {content : Option Int}
    {cell : Nat} (h : Counted storage place content after cell)
    (hfile : storage.find place ≠ some .directory) (other : Place) :
    after.find other = some .directory ↔ storage.find other = some .directory := by
  by_cases hother : other = place
  · subst hother
    simp [h.here, hfile]
  · rw [h.others other hother]

theorem Counted.value {storage after : Storage} {place : Place} {value : Int} {cell : Nat}
    (h : Counted storage place (some value) after cell) : after.cell cell = value := by
  rw [Storage.cell, h.content]
  rfl

theorem Counted.values {storage after : Storage} {place : Place} {content : Option Int}
    {cell : Nat} (h : Counted storage place content after cell) (other : Place) (number : Nat)
    (hother : other ≠ place) (hfound : storage.find other = some (.counter number)) :
    after.cell number = storage.cell number := by
  rw [Storage.cell, Storage.cell, h.contents other number hother hfound]

theorem Numbered.openCounter_ok {storage after : Storage} (h : storage.Numbered) {path : String}
    {content : Option Int} {cell : Nat}
    (hopen : storage.openCounter path content = .ok (after, cell)) :
    ∃ place, storage.resolve path = .ok place ∧ storage.find place ≠ some .directory ∧
      Counted storage place content after cell := by
  cases hresolve : storage.resolve path with
  | error refusal =>
      rw [openCounter, hresolve, error_bind] at hopen
      cases hopen
  | ok place =>
      simp only [openCounter, hresolve, ok_bind] at hopen
      split at hopen
      · cases hopen
      · rename_i cell hfound
        cases hopen
        exact ⟨place, rfl, by simp [hfound], h.reset hfound content⟩
      · rename_i hfile hnone
        cases hopen
        have hplace : place ≠ [] := by
          rintro rfl
          exact hfile (find_root storage)
        exact ⟨place, rfl, hfile, h.grow hplace hnone content⟩

/-- A counter opened with one content and then set to another is as one opened with that. -/
theorem openCounter_set {storage after : Storage} {path : String} {first : Option Int} {cell : Nat}
    (hopen : storage.openCounter path first = .ok (after, cell)) (last : Option Int) :
    storage.openCounter path last = .ok (after.setCounter cell last, cell) := by
  cases hresolve : storage.resolve path with
  | error refusal =>
      rw [openCounter, hresolve, error_bind] at hopen
      cases hopen
  | ok place =>
      simp only [openCounter, hresolve, ok_bind] at hopen ⊢
      split at hopen
      · cases hopen
      · cases hopen
        simp only [setCounter_setCounter]
        rfl
      · cases hopen
        have hcells : (storage.cells.push first).setIfInBounds storage.cells.size last =
            storage.cells.push last := by
          ext number _ _
          · simp
          · grind
        simp only [setCounter, put, hcells]
        rfl

/-- Whether a counter can be opened depends on the path and the directories only. -/
theorem openCounter_error {storage : Storage} {path : String} {content : Option Int}
    {refusal : Refusal} : storage.openCounter path content = .error refusal ↔
      storage.resolve path = .error refusal ∨
        refusal = .isDirectory ∧ ∃ place, storage.resolve path = .ok place ∧
          storage.find place = some .directory := by
  cases hresolve : storage.resolve path with
  | error reason => simp [openCounter, hresolve, error_bind]
  | ok place =>
      simp only [openCounter, hresolve, ok_bind]
      split
      · rename_i hfound
        simp [hfound, throw, throwThe, MonadExceptOf.throw, eq_comm]
      · rename_i cell hfound
        simp [hfound, pure, Except.pure]
      · rename_i hfile hnone
        have hfile' : storage.find place ≠ some .directory := hfile
        simp [hfile', pure, Except.pure]

end GatedPipeline.Storage
