import GatedPipeline.Proofs.Storage.Tree

/-!
Making the directories of a path. They are made one after the other, each where nothing stood, so
all that was there stays as it is, and what is new are directories to which the path leads on its
way. That holds also where one of them is refused: those made before it stay. A directory made
afterwards, below them or elsewhere, leaves no trace once it is removed with what was put into it.
-/

namespace GatedPipeline.Storage

/-- Whatever was there is there, and the counters have the same values. -/
structure Extends (storage after : Storage) : Prop where
  kept : ∀ {place : Place} {node : Node}, storage.find place = some node →
    after.find place = some node
  cells : after.cells = storage.cells
  home : after.home = storage.home

theorem Extends.refl (storage : Storage) : storage.Extends storage := ⟨id, rfl, rfl⟩

theorem Extends.trans {storage between after : Storage} (first : storage.Extends between)
    (second : between.Extends after) : storage.Extends after :=
  ⟨fun h => second.kept (first.kept h), second.cells.trans first.cells,
    second.home.trans first.home⟩

/-- Something new overwrites nothing. -/
theorem extends_put {storage : Storage} {place : Place} (hnone : storage.find place = none)
    (node : Node) : storage.Extends (storage.put place node) := by
  refine ⟨fun {other present} h => ?_, rfl, rfl⟩
  rw [find_put storage (place_ne_root hnone), if_neg, h]
  rintro rfl
  rw [hnone] at h
  cases h

/-- A path that leads somewhere leads there also when more is there. -/
theorem Extends.resolve {storage after : Storage} (h : storage.Extends after) {path : String}
    {place : Place} (hresolve : storage.resolve path = .ok place) :
    after.resolve path = .ok place :=
  resolve_mono hresolve (fun _ => h.kept) h.home

/-! ### Directories of a path -/

/-- What comes of the files when directories on the way of a path are made, one after the other. -/
inductive Paved (path : String) (names : List String) (storage : Storage) : Storage → Prop
  | start : Paved path names storage storage
  | next {after made : Storage} {part : List String} (before : Paved path names storage after)
      (leading : part <+: names) (make : after.makeDirectory (pathOf path part) = .ok made) :
      Paved path names storage made

namespace Paved

variable {path : String} {names : List String} {storage after : Storage}

theorem widen {more : List String} (h : Paved path names storage after) (hmore : names <+: more) :
    Paved path more storage after := by
  induction h with
  | start => exact .start
  | next _ leading make ih => exact .next ih (leading.trans hmore) make

theorem grows (h : Paved path names storage after) : storage.Extends after := by
  induction h with
  | start => exact .refl storage
  | next _ _ make ih =>
      obtain ⟨place, -, hnone, rfl⟩ := makeDirectory_ok make
      exact ih.trans (extends_put hnone .directory)

/-- What is new is a directory, and a leading part of the path leads to it. -/
theorem new (h : Paved path names storage after) {place : Place}
    (hnone : storage.find place = none) (hthere : after.find place ≠ none) :
    after.find place = some .directory ∧
      ∃ part, part <+: names ∧ after.resolve (pathOf path part) = .ok place := by
  induction h with
  | start => exact absurd hnone hthere
  | next _ leading make ih =>
      obtain ⟨own, hresolve, hfree, rfl⟩ := makeDirectory_ok make
      have hgrows := extends_put hfree .directory
      by_cases hown : place = own
      · subst hown
        rw [find_put _ (place_ne_root hfree), if_pos rfl]
        exact ⟨rfl, _, leading, hgrows.resolve hresolve⟩
      · rw [find_put _ (place_ne_root hfree), if_neg hown] at hthere
        obtain ⟨hfound, part, hpart, hleads⟩ := ih hthere
        exact ⟨hgrows.kept hfound, part, hpart, hgrows.resolve hleads⟩

end Paved

theorem makeAll_paved (path : String) (names : List String) (storage : Storage) :
    Paved path names.reverse storage (makeAll path names storage).1 := by
  induction names with
  | nil =>
      simp only [makeAll]
      split <;> exact .start
  | cons last above ih =>
      have hwhole : (last :: above).reverse <+: (last :: above).reverse := List.prefix_rfl
      have habove : above.reverse <+: (last :: above).reverse := by simp
      simp only [makeAll]
      split
      · rename_i hmade
        exact .next .start hwhole hmade
      · split
        · rename_i hparents
          rw [hparents] at ih
          exact ih.widen habove
        · rename_i hparents
          rw [hparents] at ih
          split
          · rename_i hmade
            exact .next (ih.widen habove) hwhole hmade
          · split <;> exact ih.widen habove
      · split <;> exact .start

/-- Also where a directory is refused, no more is done than making some on the way of the path. -/
theorem makeDirectories_paved (storage : Storage) (path : String) :
    Paved path (pathNames path) storage (storage.makeDirectories path).1 := by
  simp only [makeDirectories]
  split
  · exact .start
  · simpa using makeAll_paved path (pathNames path).reverse storage

/-! ### Directories removed again -/

/-- Removing takes with it what was put in the place or below it. -/
theorem remove_put (storage : Storage) {place other : Place} (hbelow : place <+: other)
    (node : Node) : (storage.put other node).remove place = storage.remove place := by
  have hgone : place.isPrefixOf other = true := List.isPrefixOf_iff_prefix.mpr hbelow
  have hskip : ∀ entry : Place × Node,
      (!place.isPrefixOf entry.1 && decide (entry.1 ≠ other)) = !place.isPrefixOf entry.1 := by
    intro entry
    by_cases hother : entry.1 = other
    · simp [hother, hgone]
    · simp [hother]
  simp only [put, remove, List.filter_cons, hgone, Bool.not_true, Bool.false_eq_true, if_false,
    List.filter_filter, hskip]

/-- Where nothing stands nothing is removed. -/
theorem IsTree.remove_absent {storage : Storage} (h : storage.IsTree) {place : Place}
    (hnone : storage.find place = none) : storage.remove place = storage := by
  have houtside : ∀ entry ∈ storage.nodes, (!place.isPrefixOf entry.1) = true := by
    intro entry hentry
    rw [Bool.not_eq_true', Bool.eq_false_iff]
    intro hbelow
    obtain ⟨names, hnames⟩ := List.isPrefixOf_iff_prefix.mp hbelow
    have hnowhere := h.below hnone names
    rw [hnames] at hnowhere
    simp only [find] at hnowhere
    split at hnowhere
    · cases hnowhere
    · exact absurd (beq_self_eq_true entry.1)
        (by simpa using List.lookup_eq_none_iff.mp hnowhere entry hentry)
  rw [remove, List.filter_eq_self.mpr houtside]

end GatedPipeline.Storage
