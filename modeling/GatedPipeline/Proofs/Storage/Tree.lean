import GatedPipeline.Proofs.Arithmetic
import GatedPipeline.Storage

/-!
The files as a tree: whatever stands at a place stands in a directory. The operations that make
directories keep this, so nothing stands below a place where nothing stands, and a directory that
has just been made is empty. The place to which a name below a directory leads is the place of the
directory with that name behind it.
-/

namespace GatedPipeline.Storage

theorem find_root (storage : Storage) : storage.find [] = some .directory := if_pos rfl

private theorem lookup_filter (nodes : List (Place × Node)) (keeps : Place → Bool)
    (place : Place) : (nodes.filter fun entry => keeps entry.1).lookup place =
      if keeps place then nodes.lookup place else none := by
  induction nodes with
  | nil => simp
  | cons first rest ih =>
      obtain ⟨at', node⟩ := first
      cases hkeeps : keeps at' with
      | true =>
          rw [List.filter_cons_of_pos (by simpa using hkeeps), List.lookup_cons, List.lookup_cons]
          cases hsame : place == at' with
          | true => rw [eq_of_beq hsame, if_pos hkeeps]
          | false => exact ih
      | false =>
          rw [List.filter_cons_of_neg (by simp [hkeeps]), List.lookup_cons, ih]
          cases hsame : place == at' with
          | true => rw [eq_of_beq hsame, hkeeps]; rfl
          | false => rfl

/-- Putting something at a place changes what stands there and nothing else. -/
theorem find_put (storage : Storage) {place : Place} (hplace : place ≠ []) (node : Node)
    (other : Place) : (storage.put place node).find other =
      if other = place then some node else storage.find other := by
  by_cases h : other = place
  · subst h
    simp [find, put, hplace]
  · by_cases hroot : other = []
    · simp [find, hroot, Ne.symm hplace]
    · simp only [find, put, hroot, h, if_false, List.lookup_cons]
      have hskip : (other == place) = false := by simpa using h
      rw [hskip]
      exact (lookup_filter storage.nodes (· ≠ place) other).trans (if_pos (by simpa using h))

/-- Only what is put at a place last counts. -/
theorem put_put (storage : Storage) (place : Place) (first last : Node) :
    (storage.put place first).put place last = storage.put place last := by
  simp [put, List.filter_filter]

/-! ### Walking -/

theorem walk_append (storage : Storage) (place : Place) (first second : List String) :
    storage.walk place (first ++ second) =
      (storage.walk place first >>= fun reached => storage.walk reached second) := by
  induction first generalizing place with
  | nil => rfl
  | cons name rest ih =>
      simp only [List.cons_append, walk, ih]
      split
      · rfl
      · split
        · rfl
        · split
          · rfl
          · split <;> rfl
      · rfl

/-- With more directories a walk that succeeds leads to the same place. -/
theorem walk_mono {storage after : Storage}
    (hmore : ∀ place, storage.find place = some .directory → after.find place = some .directory)
    {place reached : Place} {names : List String} (h : storage.walk place names = .ok reached) :
    after.walk place names = .ok reached := by
  induction names generalizing place with
  | nil => exact h
  | cons name rest ih =>
      simp only [walk] at h
      split at h
      · cases h
      · rename_i hfound
        simp only [walk, hmore place hfound]
        split at h
        · rename_i hstay
          rw [if_pos hstay]
          exact ih h
        · rename_i hstay
          rw [if_neg hstay]
          split at h
          · rename_i hup
            rw [if_pos hup]
            exact ih h
          · rename_i hup
            rw [if_neg hup]
            split at h
            · cases h
            · rename_i hshort
              rw [if_neg hshort]
              exact ih h
      · cases h

theorem walk_congr {storage after : Storage}
    (hfind : ∀ place, after.find place = storage.find place)
    (place : Place) (names : List String) : after.walk place names = storage.walk place names := by
  induction names generalizing place with
  | nil => rfl
  | cons name rest ih => simp only [walk, hfind, ih]

/-- A name that is no step to the same or the upper directory. -/
structure Plain (name : String) : Prop where
  named : name.isEmpty = false
  here : name ≠ "."
  up : name ≠ ".."

theorem walk_plain {storage : Storage} {place reached : Place} {name : String} (hplain : Plain name)
    (h : storage.walk place [name] = .ok reached) : reached = place ++ [name] := by
  simp only [walk, hplain.named, hplain.here, hplain.up, Bool.false_or, decide_false,
    Bool.false_eq_true, if_false] at h
  split at h
  · cases h
  · split at h <;> cases h
    rfl
  · cases h

/-! ### The tree -/

/-- Files that form a tree. Whatever stands at a place stands in a directory. -/
structure IsTree (storage : Storage) : Prop where
  parent : ∀ place name, (storage.find (place ++ [name])).isSome →
    storage.find place = some .directory

theorem empty_isTree : empty.IsTree :=
  ⟨fun place name h => by simp [find, empty] at h⟩

/-- Nothing stands below a place where nothing stands. -/
theorem IsTree.below {storage : Storage} (h : storage.IsTree) {place : Place}
    (hnone : storage.find place = none) (names : List String) :
    storage.find (place ++ names) = none := by
  induction names generalizing place with
  | nil => rwa [List.append_nil]
  | cons name rest ih =>
      have hnext : storage.find (place ++ [name]) = none := by
        cases hfound : storage.find (place ++ [name]) with
        | none => rfl
        | some node =>
            have hparent := h.parent place name (by simp [hfound])
            rw [hnone] at hparent
            cases hparent
      have hrest := ih hnext
      rwa [List.append_assoc] at hrest

theorem IsTree.dropLast {storage : Storage} (h : storage.IsTree) {place : Place}
    (hfound : (storage.find place).isSome) : storage.find place.dropLast = some .directory := by
  rcases List.eq_nil_or_concat place with rfl | ⟨above, name, rfl⟩
  · exact find_root storage
  · rw [List.concat_eq_append] at hfound ⊢
    rw [List.dropLast_concat]
    exact h.parent above name hfound

/-- A walk ends in a directory of the tree or at a place in one. -/
theorem IsTree.walk_parent {storage : Storage} (h : storage.IsTree) {place reached : Place}
    {names : List String} (hnames : names ≠ []) (hwalk : storage.walk place names = .ok reached) :
    storage.find reached.dropLast = some .directory := by
  induction names generalizing place with
  | nil => exact absurd rfl hnames
  | cons name rest ih =>
      simp only [walk] at hwalk
      split at hwalk
      · cases hwalk
      · rename_i hfound
        cases rest with
        | nil =>
            simp only [walk] at hwalk
            split at hwalk
            · cases hwalk
              exact h.dropLast (by simp [hfound])
            · split at hwalk
              · cases hwalk
                have hparent : storage.find place.dropLast = some .directory :=
                  h.dropLast (by simp [hfound])
                exact h.dropLast (by simp [hparent])
              · split at hwalk
                · cases hwalk
                · cases hwalk
                  rwa [List.dropLast_concat]
        | cons second rest =>
            split at hwalk
            · exact ih (by simp) hwalk
            · split at hwalk
              · exact ih (by simp) hwalk
              · split at hwalk
                · cases hwalk
                · exact ih (by simp) hwalk
      · cases hwalk

private theorem splitNames_ne_nil (text : List Char) : splitNames text ≠ [] := by
  cases text with
  | nil => simp [splitNames]
  | cons c rest =>
      simp only [splitNames]
      split
      · simp
      · split <;> simp

theorem namesOf_ne_nil (path : String) : namesOf path ≠ [] := by
  simp [namesOf, splitNames_ne_nil]

theorem resolve_ok {storage : Storage} {path : String} {place : Place}
    (h : storage.resolve path = .ok place) :
    storage.walk (if isAbsolute path then [] else storage.home) (namesOf path) = .ok place := by
  simp only [resolve] at h
  split at h
  · cases h
  · split at h
    · cases h
    · split at h
      · cases h
      · exact h

theorem resolve_zero {storage : Storage} {path : String} {place : Place}
    (h : storage.resolve path = .ok place) : '\x00' ∉ path.toList := by
  simp only [resolve] at h
  split at h
  · cases h
  · rename_i hzero
    simpa using hzero

theorem IsTree.resolve_parent {storage : Storage} (h : storage.IsTree) {path : String}
    {place : Place} (hresolve : storage.resolve path = .ok place) :
    storage.find place.dropLast = some .directory :=
  h.walk_parent (namesOf_ne_nil path) (resolve_ok hresolve)

/-- Putting something into a directory of the tree, but no file over a directory. -/
theorem IsTree.put {storage : Storage} (h : storage.IsTree) {place : Place} (hplace : place ≠ [])
    (hparent : storage.find place.dropLast = some .directory) {node : Node}
    (hkeep : storage.find place = some .directory → node = .directory) :
    (storage.put place node).IsTree := by
  refine ⟨fun above name hsome => ?_⟩
  rw [find_put storage hplace] at hsome ⊢
  have hfound : storage.find above = some .directory := by
    by_cases hat : above ++ [name] = place
    · rwa [← hat, List.dropLast_concat] at hparent
    · rw [if_neg hat] at hsome
      exact h.parent above name hsome
  by_cases hself : above = place
  · rw [if_pos hself, hkeep (hself ▸ hfound)]
  · rw [if_neg hself]
    exact hfound

/-! ### Names below a directory -/

private theorem splitNames_slash (first second : List Char) :
    splitNames (first ++ '/' :: second) = splitNames first ++ splitNames second := by
  induction first with
  | nil => simp [splitNames]
  | cons c rest ih =>
      simp only [List.cons_append, splitNames, ih]
      split
      · rfl
      · cases hsplit : splitNames rest with
        | nil => exact absurd hsplit (splitNames_ne_nil rest)
        | cons name names => rfl

private theorem splitNames_single {text : List Char} (h : '/' ∉ text) :
    splitNames text = [text] := by
  induction text with
  | nil => rfl
  | cons c rest ih =>
      simp only [List.mem_cons, not_or] at h
      simp [splitNames, ih h.2, Ne.symm h.1]

theorem isAbsolute_name {name : String} (hslash : '/' ∉ name.toList) : isAbsolute name = false := by
  have hhead : name.toList.head? ≠ some '/' := fun hhead =>
    hslash (List.mem_of_mem_head? hhead)
  simpa [isAbsolute] using hhead

theorem namesOf_name {name : String} (hslash : '/' ∉ name.toList) : namesOf name = [name] := by
  simp only [namesOf, splitNames_single hslash, List.map_cons, List.map_nil, String.ofList_toList]

/-- A path to a name below a directory continues the path of the directory. -/
theorem join_eq {directory name : String} (hdirectory : directory ≠ "")
    (hslash : '/' ∉ name.toList) : ∃ between, join directory name = directory ++ between := by
  have hsome : directory.isEmpty = false := by simpa [String.isEmpty_iff] using hdirectory
  simp only [join, isAbsolute_name hslash, hsome, Bool.or_self, Bool.false_eq_true, if_false]
  split
  · exact ⟨name, rfl⟩
  · exact ⟨"/" ++ name, String.append_assoc⟩

theorem isAbsolute_join {directory name : String} (hdirectory : directory ≠ "")
    (hslash : '/' ∉ name.toList) : isAbsolute (join directory name) = isAbsolute directory := by
  obtain ⟨between, hjoin⟩ := join_eq hdirectory hslash
  obtain ⟨first, rest, hlist⟩ : ∃ first rest, directory.toList = first :: rest :=
    List.exists_cons_of_ne_nil (by simpa using hdirectory)
  simp [hjoin, isAbsolute, String.toList_append, hlist]

/-- The path to a name below a directory leads from the directory to that name. -/
theorem walk_join (storage : Storage) (place : Place) {directory name : String}
    (hdirectory : directory ≠ "") (hslash : '/' ∉ name.toList) :
    storage.walk place (namesOf (join directory name)) =
      (storage.walk place (namesOf directory) >>= fun above => storage.walk above [name]) := by
  have hsome : directory.isEmpty = false := by simpa [String.isEmpty_iff] using hdirectory
  simp only [join, isAbsolute_name hslash, hsome, Bool.or_self, Bool.false_eq_true, if_false]
  by_cases hopen : endsOpen directory
  · -- the name behind the last slash is empty: a step from the directory to itself
    obtain ⟨above, habove⟩ : ∃ above, directory.toList = above ++ ['/'] := by
      simp only [endsOpen, decide_eq_true_eq] at hopen
      obtain ⟨above, habove⟩ := List.getLast?_eq_some_iff.mp hopen
      exact ⟨above, habove⟩
    have hnames : namesOf (directory ++ name) =
        (splitNames above).map String.ofList ++ [name] := by
      simp only [namesOf, String.toList_append, habove, List.append_assoc, List.cons_append,
        List.nil_append, splitNames_slash, splitNames_single hslash, List.map_append, List.map_cons,
        List.map_nil, String.ofList_toList]
    have hdirectoryNames : namesOf directory = (splitNames above).map String.ofList ++ [""] := by
      simp only [namesOf, habove, splitNames_slash, splitNames, List.map_append, List.map_cons,
        List.map_nil, String.ofList_nil]
    rw [if_pos hopen, hnames, hdirectoryNames, walk_append, walk_append]
    cases storage.walk place ((splitNames above).map String.ofList) with
    | error refusal => rfl
    | ok parent =>
        rw [ok_bind, ok_bind]
        cases hfound : storage.find parent with
        | none => simp [walk, hfound, error_bind]
        | some node => cases node <;> simp [walk, hfound, ok_bind, error_bind]
  · have hnames : namesOf (directory ++ "/" ++ name) = namesOf directory ++ [name] := by
      have hsplit := splitNames_slash directory.toList name.toList
      rw [splitNames_single hslash] at hsplit
      simp [namesOf, String.toList_append, hsplit]
    rw [if_neg hopen, hnames, walk_append]

private theorem join_ne_empty (directory : String) {name : String} (h : name ≠ "") :
    join directory name ≠ "" := by
  simp only [join]
  split
  · exact h
  · split <;> simp [h]

private theorem join_zero {directory name : String} (hdirectory : '\x00' ∉ directory.toList)
    (hname : '\x00' ∉ name.toList) : '\x00' ∉ (join directory name).toList := by
  simp only [join]
  split
  · exact hname
  · split <;> simp [String.toList_append, hdirectory, hname]

/-- A path leads to a name below a directory only if the path of the directory leads somewhere. -/
theorem resolve_join {storage : Storage} {directory name : String} {reached : Place}
    (hdirectory : directory ≠ "") (hslash : '/' ∉ name.toList)
    (h : storage.resolve (join directory name) = .ok reached) :
    ∃ above, storage.resolve directory = .ok above ∧ storage.walk above [name] = .ok reached := by
  obtain ⟨between, hjoin⟩ := join_eq hdirectory hslash
  have hwalk := resolve_ok h
  rw [isAbsolute_join hdirectory hslash, walk_join storage _ hdirectory hslash] at hwalk
  cases habove : storage.walk (if isAbsolute directory then [] else storage.home)
      (namesOf directory) with
  | error refusal =>
      rw [habove, error_bind] at hwalk
      cases hwalk
  | ok above =>
      rw [habove, ok_bind] at hwalk
      refine ⟨above, ?_, hwalk⟩
      have hempty : directory.isEmpty = false := by simpa [String.isEmpty_iff] using hdirectory
      -- what is wrong with the directory's path would be wrong with the longer one
      simp only [resolve, hjoin] at h
      split at h
      · cases h
      · rename_i hzero
        have hzero' : directory.toList.contains '\x00' ≠ true := by
          intro hcontains
          rw [List.contains_iff_mem] at hcontains hzero
          rw [String.toList_append] at hzero
          exact hzero (List.mem_append_left _ hcontains)
        split at h
        · cases h
        · split at h
          · cases h
          · rename_i hlong
            have hlong' : ¬ longestPath < directory.utf8ByteSize := by
              rw [String.utf8ByteSize_append] at hlong
              omega
            rw [resolve, if_neg hzero', hempty, if_neg Bool.false_ne_true, if_neg hlong', habove]

/-- A directory in use: it stands where its path leads. -/
structure Housed (storage : Storage) (directory : String) (place : Place) : Prop where
  named : directory ≠ ""
  resolves : storage.resolve directory = .ok place
  stands : storage.find place = some .directory

theorem resolve_mono {storage after : Storage} {path : String} {place : Place}
    (h : storage.resolve path = .ok place)
    (hmore : ∀ place, storage.find place = some .directory → after.find place = some .directory)
    (hhome : after.home = storage.home) : after.resolve path = .ok place := by
  have hwalk := walk_mono hmore (resolve_ok h)
  simp only [resolve] at h ⊢
  split at h
  · cases h
  · rename_i hzero
    rw [if_neg hzero]
    split at h
    · cases h
    · rename_i hempty
      rw [if_neg hempty]
      split at h
      · cases h
      · rename_i hlong
        rw [if_neg hlong, hhome]
        exact hwalk

theorem Housed.mono {storage after : Storage} {directory : String} {place : Place}
    (h : storage.Housed directory place)
    (hmore : ∀ place, storage.find place = some .directory → after.find place = some .directory)
    (hhome : after.home = storage.home) : after.Housed directory place :=
  ⟨h.named, resolve_mono h.resolves hmore hhome, hmore place h.stands⟩

/-- Putting a file where no directory stands loses no directory. -/
theorem directories_put (storage : Storage) {place : Place} (hplace : place ≠ [])
    (hnone : storage.find place ≠ some .directory) (node : Node) (other : Place)
    (h : storage.find other = some .directory) :
    (storage.put place node).find other = some .directory := by
  have hother : other ≠ place := fun hsame => hnone (hsame ▸ h)
  rw [find_put storage hplace, if_neg hother, h]

/-- Where the path of a name below a directory in use leads, if it leads anywhere. -/
theorem Housed.resolve_name {storage : Storage} {directory name : String} {place reached : Place}
    (h : storage.Housed directory place) (hslash : '/' ∉ name.toList) (hplain : Plain name)
    (hresolve : storage.resolve (join directory name) = .ok reached) :
    reached = place ++ [name] := by
  obtain ⟨above, habove, hwalk⟩ := resolve_join h.named hslash hresolve
  rw [h.resolves] at habove
  cases habove
  exact walk_plain hplain hwalk

/-- A name below a directory in use leads there, unless it or the path to it is too long. -/
theorem Housed.resolve_short {storage : Storage} {directory name : String} {place : Place}
    (h : storage.Housed directory place) (hslash : '/' ∉ name.toList) (hplain : Plain name)
    (hzero : '\x00' ∉ name.toList) (hname : name.utf8ByteSize ≤ longestName)
    (hpath : (join directory name).utf8ByteSize ≤ longestPath) :
    storage.resolve (join directory name) = .ok (place ++ [name]) := by
  have hnonzero : (join directory name).toList.contains '\x00' = false := by
    simpa using join_zero (resolve_zero h.resolves) hzero
  have hnamed : (join directory name).isEmpty = false := by
    have hname := join_ne_empty directory (show name ≠ "" by
      rintro rfl
      cases hplain.named)
    simpa [String.isEmpty_iff] using hname
  have hlast : storage.walk place [name] = .ok (place ++ [name]) := by
    simp only [walk, h.stands, hplain.named, hplain.here, hplain.up, Bool.false_or, decide_false,
      Bool.false_eq_true, if_false, if_neg (Nat.not_lt.mpr hname)]
  rw [resolve, hnonzero, hnamed, if_neg Bool.false_ne_true, if_neg Bool.false_ne_true,
    if_neg (Nat.not_lt.mpr hpath), isAbsolute_join h.named hslash, walk_join _ _ h.named hslash,
    resolve_ok h.resolves, ok_bind, hlast]

/-- Where the path of a name below a directory leads depends on the directories only. -/
theorem resolve_join_stable {storage after : Storage}
    (hmore : ∀ place, storage.find place = some .directory → after.find place = some .directory)
    (hhome : after.home = storage.home) {directory name : String} {place : Place}
    (hdirectory : directory ≠ "") (hslash : '/' ∉ name.toList)
    (hresolve : storage.resolve directory = .ok place)
    (hstands : storage.find place = some .directory) :
    after.resolve (join directory name) = storage.resolve (join directory name) := by
  have hwalk := resolve_ok hresolve
  have hname : after.walk place [name] = storage.walk place [name] := by
    simp only [walk, hstands, hmore place hstands]
  simp only [resolve, hhome, isAbsolute_join hdirectory hslash,
    walk_join _ _ hdirectory hslash, hwalk, walk_mono hmore hwalk, ok_bind, hname]

theorem resolve_empty (storage : Storage) : storage.resolve "" = .error .missing := rfl

theorem join_empty (name : String) : join "" name = name := by simp [join]

theorem walk_stands {storage : Storage} {place reached : Place} {name : String}
    (h : storage.walk place [name] = .ok reached) : storage.find place = some .directory := by
  simp only [walk] at h
  split at h <;> first | assumption | cases h

/-- If the path of one name below a directory leads somewhere, no file made or removed changes where
the paths of other names lead. -/
theorem resolve_beside {storage after : Storage}
    (hmore : ∀ place, storage.find place = some .directory → after.find place = some .directory)
    (hhome : after.home = storage.home) {directory name other : String} {reached : Place}
    (hname : '/' ∉ name.toList) (hother : '/' ∉ other.toList)
    (h : storage.resolve (join directory name) = .ok reached) :
    after.resolve (join directory other) = storage.resolve (join directory other) := by
  by_cases hempty : directory = ""
  · subst hempty
    rw [join_empty] at h ⊢
    have hwalk := resolve_ok h
    rw [isAbsolute_name hname, if_neg Bool.false_ne_true, namesOf_name hname] at hwalk
    have hstands := walk_stands hwalk
    simp only [resolve, isAbsolute_name hother, Bool.false_eq_true, if_false, namesOf_name hother,
      hhome, walk, hstands, hmore _ hstands]
  · obtain ⟨above, habove, hwalk⟩ := resolve_join hempty hname h
    exact resolve_join_stable hmore hhome hempty hother habove (walk_stands hwalk)

/-! ### Making directories -/

theorem Backing.grant_ok {α : Type} {backing : Backing} {outcome : Except Refusal α} {result : α}
    (h : backing.grant outcome = .ok result) : backing.opening = none ∧ outcome = .ok result := by
  simp only [grant] at h
  split at h
  · cases h
  · rename_i hopening
    exact ⟨hopening, h⟩

theorem createNew_ok {storage after : Storage} {path : String} {node : Node}
    (h : storage.createNew path node = .ok after) : ∃ place, storage.resolve path = .ok place ∧
      storage.find place = none ∧ after = storage.put place node := by
  simp only [createNew] at h
  cases hresolve : storage.resolve path with
  | error refusal =>
      rw [hresolve, error_bind] at h
      cases h
  | ok place =>
      rw [hresolve, ok_bind] at h
      cases hfound : storage.find place with
      | none =>
          simp only [hfound] at h
          cases h
          exact ⟨place, rfl, hfound, rfl⟩
      | some present =>
          simp only [hfound] at h
          cases h

theorem makeDirectory_ok {storage after : Storage} {path : String}
    (h : storage.makeDirectory path = .ok after) : ∃ place, storage.resolve path = .ok place ∧
      storage.find place = none ∧ after = storage.put place .directory :=
  createNew_ok h

theorem resize_ok {storage after : Storage} {path : String} {bytes : Nat}
    {refused : Option Refusal} (h : storage.resize path bytes refused = .ok after) :
    refused = none ∧ ∃ place, storage.resolve path = .ok place ∧ (bytes : Int) < signedLimit ∧
      after = storage.put place (.log bytes) := by
  simp only [resize] at h
  split at h
  · cases h
  · rename_i hsmall
    cases refused with
    | some refusal => cases h
    | none =>
        cases hresolve : storage.resolve path with
        | error refusal =>
            rw [hresolve] at h
            cases h
        | ok place =>
            rw [hresolve] at h
            cases h
            exact ⟨rfl, place, rfl, Int.not_le.mp hsmall, rfl⟩

/-- A file to which its path leads is refused its size only for being too large, or by the system.
-/
theorem resize_error {storage : Storage} {path : String} {place : Place} {bytes : Nat}
    {refused : Option Refusal} {refusal : Refusal} (hresolve : storage.resolve path = .ok place)
    (h : storage.resize path bytes refused = .error refusal) :
    signedLimit ≤ (bytes : Int) ∧ refusal = .sizeOutOfRange ∨
      (bytes : Int) < signedLimit ∧ refused = some refusal := by
  simp only [resize] at h
  split at h
  · rename_i hlarge
    cases h
    exact .inl ⟨hlarge, rfl⟩
  · rename_i hsmall
    cases refused with
    | some other =>
        cases h
        exact .inr ⟨Int.not_le.mp hsmall, rfl⟩
    | none =>
        rw [hresolve] at h
        cases h

theorem place_ne_root {storage : Storage} {place : Place} (h : storage.find place = none) :
    place ≠ [] := by
  intro hroot
  rw [hroot, find_root] at h
  cases h

theorem IsTree.makeDirectory {storage after : Storage} {path : String} (h : storage.IsTree)
    (hmake : storage.makeDirectory path = .ok after) : after.IsTree := by
  obtain ⟨place, hresolve, hnone, rfl⟩ := makeDirectory_ok hmake
  exact h.put (place_ne_root hnone) (h.resolve_parent hresolve) fun _ => rfl

private theorem makeAll_keeps {keeps : Storage → Prop} (hmake : ∀ {storage after : Storage}
      {path : String}, keeps storage → storage.makeDirectory path = .ok after → keeps after)
    {storage : Storage} (h : keeps storage) (path : String) (names : List String) :
    keeps (makeAll path names storage).1 := by
  induction names with
  | nil =>
      simp only [makeAll]
      split <;> exact h
  | cons last above ih =>
      simp only [makeAll]
      split
      · rename_i hmade
        exact hmake h hmade
      · split
        · rename_i hparents
          rw [hparents] at ih
          exact ih
        · rename_i hparents
          rw [hparents] at ih
          split
          · rename_i hmade
            exact hmake ih hmade
          · split <;> exact ih
      · split <;> exact h

/-- What making one directory keeps, making those on a path keeps, also when one of them is refused
and those made before stay. -/
theorem makeDirectories_keeps {keeps : Storage → Prop} (hmake : ∀ {storage after : Storage}
      {path : String}, keeps storage → storage.makeDirectory path = .ok after → keeps after)
    {storage : Storage} (h : keeps storage) (path : String) :
    keeps (storage.makeDirectories path).1 := by
  simp only [makeDirectories]
  split
  · exact h
  · exact makeAll_keeps hmake h path _

theorem IsTree.makeDirectories {storage : Storage} (h : storage.IsTree) (path : String) :
    (storage.makeDirectories path).1.IsTree :=
  makeDirectories_keeps IsTree.makeDirectory h path

private theorem freeName_ne_empty (storage : Storage) (parent : Place) {stem : String}
    (h : stem ≠ "") : storage.freeName parent stem ≠ "" := by
  simp only [freeName]
  cases hfind : List.find? (fun name => (storage.find (parent ++ [name])).isNone)
      ((List.range (storage.nodes.length + 1)).map fun n => stem ++ toString n) with
  | none => exact h
  | some name =>
      have hname := List.mem_of_find?_eq_some hfind
      simp only [List.mem_map] at hname
      obtain ⟨n, -, rfl⟩ := hname
      simp [h]

/-- A fresh directory is put where nothing stood, and it is in use at once. -/
theorem makeFresh_ok {storage after : Storage} {parent stem directory : String} (hstem : stem ≠ "")
    (hmake : storage.makeFresh parent stem = .ok (after, directory)) :
    ∃ place, storage.find place = none ∧ after = storage.put place .directory ∧
      after.Housed directory place := by
  simp only [Storage.makeFresh] at hmake
  cases hparent : storage.resolve (join parent ".") with
  | error refusal =>
      rw [hparent] at hmake
      cases hmake
  | ok above =>
      rw [hparent] at hmake
      simp only [bind, Except.bind] at hmake
      split at hmake
      · cases hmake
      · rename_i made hmade
        cases hmake
        obtain ⟨place, hresolve, hnone, rfl⟩ := makeDirectory_ok hmade
        have hplace := place_ne_root hnone
        have hnowhere : storage.find place ≠ some .directory := by simp [hnone]
        have hmore := directories_put _ hplace hnowhere .directory
        refine ⟨place, hnone, rfl, ?_, resolve_mono hresolve hmore rfl, ?_⟩
        · exact join_ne_empty parent (freeName_ne_empty storage above hstem)
        · rw [find_put storage hplace, if_pos rfl]

/-! ### Removing -/

/-- Removing a directory takes away what stands in it and below, and nothing else. -/
theorem find_remove (storage : Storage) {place : Place} (hplace : place ≠ []) (other : Place) :
    (storage.remove place).find other =
      if place.isPrefixOf other then none else storage.find other := by
  cases other with
  | nil =>
      have houtside : place.isPrefixOf [] = false := by
        cases place with
        | nil => exact absurd rfl hplace
        | cons name rest => rfl
      rw [houtside]
      simp [find]
  | cons name rest =>
      have hlookup := lookup_filter storage.nodes (fun entry => !place.isPrefixOf entry)
        (name :: rest)
      simp only [find, remove, reduceCtorEq, if_false, hlookup]
      cases place.isPrefixOf (name :: rest) <;> rfl

/-- The counters outlive the files they were in. -/
theorem removeDirectory_cells {storage after : Storage} {path : String}
    (h : storage.removeDirectory path = .ok after) :
    after.cells = storage.cells ∧ after.home = storage.home := by
  simp only [removeDirectory] at h
  cases hresolve : storage.resolve path with
  | error refusal =>
      rw [hresolve] at h
      cases h
  | ok place =>
      rw [hresolve, ok_bind] at h
      split at h <;> cases h
      exact ⟨rfl, rfl⟩

theorem Housed.removeDirectory_ok {storage : Storage} {directory : String} {place : Place}
    (h : storage.Housed directory place) :
    storage.removeDirectory directory = .ok (storage.remove place) := by
  rw [removeDirectory, h.resolves, ok_bind, h.stands]
  rfl

theorem Housed.isDirectory {storage : Storage} {directory : String} {place : Place}
    (h : storage.Housed directory place) : storage.isDirectory directory = true := by
  simp only [Storage.isDirectory, h.resolves, holdsDirectory, h.stands]

/-- A directory that was removed is gone: its path leads there no more, or nowhere. -/
theorem Housed.removed {storage : Storage} {directory : String} {place : Place}
    (h : storage.Housed directory place) (hplace : place ≠ []) :
    (storage.remove place).isDirectory directory = false := by
  simp only [Storage.isDirectory]
  cases hresolve : (storage.remove place).resolve directory with
  | error refusal => rfl
  | ok reached =>
      have hmore : ∀ other, (storage.remove place).find other = some .directory →
          storage.find other = some .directory := by
        intro other hother
        rw [find_remove storage hplace] at hother
        split at hother
        · cases hother
        · exact hother
      have hsame := resolve_mono hresolve hmore rfl
      rw [h.resolves] at hsame
      cases hsame
      have hself : place.isPrefixOf place = true := List.isPrefixOf_iff_prefix.mpr List.prefix_rfl
      simp only [holdsDirectory, find_remove storage hplace, hself, if_true]

/-- What is no directory cannot be removed. -/
theorem removeDirectory_refused {storage : Storage} {directory : String}
    (h : storage.isDirectory directory = false) :
    ∃ refusal, storage.removeDirectory directory = .error refusal := by
  simp only [Storage.isDirectory] at h
  simp only [removeDirectory]
  cases hresolve : storage.resolve directory with
  | error refusal => exact ⟨refusal, by rw [error_bind]⟩
  | ok place =>
      rw [hresolve] at h
      simp only [holdsDirectory] at h
      rw [ok_bind]
      split at h
      · cases h
      · rename_i hnone
        cases hfound : storage.find place with
        | none => exact ⟨.missing, rfl⟩
        | some node =>
            cases node with
            | directory => exact absurd hfound hnone
            | _ => exact ⟨.notDirectory, rfl⟩

end GatedPipeline.Storage
