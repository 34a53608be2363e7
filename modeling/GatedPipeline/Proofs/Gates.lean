import Mathlib.Data.List.Nodup
import GatedPipeline.Gate
import GatedPipeline.Proofs.Arithmetic
import GatedPipeline.Proofs.Storage.Counters

/-!
The gates of the stages of one run. A registry in the run's own directory gives every stage a
counter of its own: the first open of a gate finds no file there and makes one, so opening changes
no value, and publishing changes one gate and no other. A gate that was never opened counts as `-1`.
-/

namespace GatedPipeline

namespace Gate

theorem ofStage_injective {one other : Nat} (h : ofStage one = ofStage other) : one = other := by
  have hdigits : Nat.toDigits 10 one = Nat.toDigits 10 other := by
    have hlists := congrArg String.toList h
    simpa [ofStage] using hlists
  rw [← Nat.ofDigitChars_ten_toDigits (n := one), hdigits, Nat.ofDigitChars_ten_toDigits]

def fileOfStage (stage : Nat) : String := ofStage stage ++ ".gate"

theorem fileOfStage_injective {one other : Nat} (h : fileOfStage one = fileOfStage other) :
    one = other :=
  ofStage_injective (String.append_left_inj ".gate" |>.mp h)

/-- The file of a gate whose id is a name has a name below the directory. -/
theorem file_slash {id : String} (hslash : '/' ∉ id.toList) : '/' ∉ (id ++ ".gate").toList := by
  rw [String.toList_append, List.mem_append, not_or]
  exact ⟨hslash, by decide⟩

theorem file_plain (id : String) : Storage.Plain (id ++ ".gate") := by
  have hlast : (id ++ ".gate").toList.getLast? = some 'e' := by
    rw [String.toList_append]
    exact List.getLast?_append_of_ne_nil _ (by decide)
  refine ⟨?_, ?_, ?_⟩
  · cases hempty : (id ++ ".gate").isEmpty with
    | false => rfl
    | true =>
        rw [String.isEmpty_iff.mp hempty] at hlast
        cases hlast
  · intro h
    rw [h] at hlast
    exact absurd hlast (by decide)
  · intro h
    rw [h] at hlast
    exact absurd hlast (by decide)

/-- The id of a stage's gate has no characters but those of its stem and digits. -/
theorem ofStage_free {c : Char} (hstem : c ∉ "stage-".toList) (hdigit : c.isDigit = false)
    (stage : Nat) : c ∉ (ofStage stage).toList := by
  intro hmember
  rw [ofStage, String.toList_append, List.mem_append] at hmember
  rcases hmember with hfirst | hnumber
  · exact hstem hfirst
  · have hdigits : c ∈ Nat.toDigits 10 stage := by simpa using hnumber
    rw [Nat.isDigit_of_mem_toDigits (by decide) (by decide) hdigits] at hdigit
    cases hdigit

theorem ofStage_slash (stage : Nat) : '/' ∉ (ofStage stage).toList :=
  ofStage_free (by decide) (by decide) stage

theorem fileOfStage_slash (stage : Nat) : '/' ∉ (fileOfStage stage).toList :=
  file_slash (ofStage_slash stage)

theorem fileOfStage_zero (stage : Nat) : '\x00' ∉ (fileOfStage stage).toList := by
  rw [fileOfStage, String.toList_append, List.mem_append, not_or]
  exact ⟨ofStage_free (by decide) (by decide) stage, by decide⟩

/-- Of the stages there can be, none is too large for the name of a file. -/
theorem fileOfStage_short :
    ∀ stage ≤ maxStages, (fileOfStage stage).utf8ByteSize ≤ Storage.longestName := by
  decide +kernel

/-! ### What a gate says is completed -/

section Completed

variable {storage : Storage} {gate : Gate} {index : Nat}

theorem hasCompleted_signed (h : (index : Int) < signedLimit) :
    gate.hasCompleted storage index = decide ((index : Int) ≤ gate.read storage) := by
  rw [hasCompleted, Word.signed_ofNat h]

theorem hasCompleted_beyond (hbeyond : signedLimit ≤ index) (hword : index < wordLimit)
    (hfloor : nothingCompleted ≤ gate.read storage) : gate.hasCompleted storage index = true := by
  have hnat : (UInt64.ofNat index).toNat = index := UInt64.toNat_ofNat_of_lt' hword
  rw [hasCompleted, Word.signed_eq, hnat, if_neg (Int.not_lt.mpr hbeyond), decide_eq_true_eq]
  refine Int.le_trans ?_ hfloor
  simp only [nothingCompleted]
  omega

end Completed

/-! ### What creating a gate comes to -/

/-- How the system refuses the file of a gate, once emptied, its size or its mapping, and what the
counter in it holds then. -/
def spoiled (backing : Storage.Backing) (path : String) : Option (Failure × Option Int) :=
  match backing with
  | ⟨_, some refusal, _⟩ => some (⟨[.sizingGate path], .storage refusal⟩, none)
  | ⟨_, none, .refused refusal⟩ => some (⟨[.mappingGate path], .storage refusal⟩, some 0)
  | ⟨_, none, .null⟩ => some (.of .gateAtNull, some 0)
  | ⟨_, none, .mapped⟩ => none

theorem spoiled_sound (path : String) : spoiled .sound path = none := rfl

theorem create_refused {storage : Storage} {directory id : String} {refusal : Storage.Refusal}
    {backing : Storage.Backing}
    (hopen : backing.grant (storage.openCounter (file directory id) none) = .error refusal) :
    create storage directory id backing =
      (storage, .error ⟨[.creatingGate (file directory id)], .storage refusal⟩) := by
  simp only [create, hopen]

/-- Once its file is open, a gate is spoiled or made. -/
theorem create_opened {storage emptied : Storage} {directory id : String} {cell : Nat}
    {backing : Storage.Backing}
    (hopen : backing.grant (storage.openCounter (file directory id) none) = .ok (emptied, cell)) :
    create storage directory id backing =
      match spoiled backing (file directory id) with
      | some (failure, left) => (emptied.setCounter cell left, .error failure)
      | none => (emptied.setCounter cell (some nothingCompleted), .ok ⟨id, cell⟩) := by
  have hcounter := (Storage.Backing.grant_ok hopen).2
  have hempty : emptied.setCounter cell none = emptied :=
    congrArg Prod.fst (Except.ok.inj ((Storage.openCounter_set hcounter none).symm.trans hcounter))
  obtain ⟨opening, _ | refusal, _ | refusal | _⟩ := backing <;>
    simp only [create, hopen, spoiled, Storage.setCell, Storage.setCounter_setCounter, hempty]

end Gate

namespace Registry

/-! ### What an open comes to -/

section

variable {storage : Storage} {registry : Registry} {id : String}

theorem openOn_found {gate : Gate} (hfound : registry.find id = some gate)
    (backing : Storage.Backing) :
    registry.openOn backing storage id = (storage, .ok (registry, gate)) := by
  simp only [openOn, hfound]

/-- An open on a system that refuses nothing of its own. -/
theorem open_eq : registry.open storage id =
    match registry.find id with
    | some gate => .ok (storage, registry, gate)
    | none =>
        match storage.openCounter (Gate.file registry.directory id)
            (some Gate.nothingCompleted) with
        | .error refusal =>
            .error ⟨[.creatingGate (Gate.file registry.directory id)], .storage refusal⟩
        | .ok (after, cell) =>
            .ok (after, { registry with gates := ⟨id, cell⟩ :: registry.gates }, ⟨id, cell⟩) := by
  cases hfound : registry.find id with
  | some gate => simp only [Registry.open, openOn_found hfound]
  | none =>
      cases hopen : Storage.Backing.sound.grant
          (storage.openCounter (Gate.file registry.directory id) none) with
      | error refusal =>
          have hset : storage.openCounter (Gate.file registry.directory id)
              (some Gate.nothingCompleted) = .error refusal :=
            Storage.openCounter_error.mpr (Storage.openCounter_error.mp hopen)
          simp only [Registry.open, openOn, hfound, Gate.create_refused hopen, hset]
      | ok opened =>
          obtain ⟨emptied, cell⟩ := opened
          have hset := Storage.openCounter_set (Storage.Backing.grant_ok hopen).2
          simp only [Registry.open, openOn, hfound, Gate.create_opened hopen,
            Gate.spoiled_sound, hset]

/-- An open that such a system refuses leaves all files as they were. -/
theorem openOn_sound : registry.openOn .sound storage id =
    match registry.open storage id with
    | .error failure => (storage, .error failure)
    | .ok (after, opened, gate) => (after, .ok (opened, gate)) := by
  cases hfound : registry.find id with
  | some gate => simp only [Registry.open, openOn_found hfound]
  | none =>
      cases hopen : Storage.Backing.sound.grant
          (storage.openCounter (Gate.file registry.directory id) none) with
      | error refusal => simp only [Registry.open, openOn, hfound, Gate.create_refused hopen]
      | ok opened =>
          obtain ⟨emptied, cell⟩ := opened
          simp only [Registry.open, openOn, hfound, Gate.create_opened hopen,
            Gate.spoiled_sound]

end

/-- The value of the gate of an id. A gate that was never opened counts as `-1`. -/
def valueOf (registry : Registry) (storage : Storage) (id : String) : Int :=
  ((registry.find id).map (Gate.read storage)).getD Gate.nothingCompleted

def value (registry : Registry) (storage : Storage) (stage : Nat) : Int :=
  ((registry.find (Gate.ofStage stage)).map (Gate.read storage)).getD Gate.nothingCompleted

/-- The registry of a run whose directory is in use: its gates are those of stages, each with a
counter of its own, and no file stands where the gate of another stage will be made. -/
structure Sound (registry : Registry) (storage : Storage) (place : Storage.Place) : Prop where
  housed : storage.Housed registry.directory place
  staged : ∀ gate ∈ registry.gates, ∃ stage, gate.id = Gate.ofStage stage
  ids : (registry.gates.map Gate.id).Nodup
  cells : ∀ gate ∈ registry.gates, gate.cell < storage.cells.size
  distinct : (registry.gates.map Gate.cell).Nodup
  free : ∀ stage, registry.find (Gate.ofStage stage) = none →
    storage.find (place ++ [Gate.fileOfStage stage]) = none

theorem find_mem {registry : Registry} {id : String} {gate : Gate}
    (h : registry.find id = some gate) : gate ∈ registry.gates ∧ gate.id = id :=
  ⟨List.mem_of_find?_eq_some h, by simpa using List.find?_some h⟩

theorem find_of_mem {registry : Registry} (hids : (registry.gates.map Gate.id).Nodup) {gate : Gate}
    (hgate : gate ∈ registry.gates) : registry.find gate.id = some gate := by
  cases hfound : registry.find gate.id with
  | none =>
      simp only [find, List.find?_eq_none, decide_eq_true_eq] at hfound
      exact absurd rfl (hfound gate hgate)
  | some second =>
      obtain ⟨hsecond, hid⟩ := find_mem hfound
      rw [List.inj_on_of_nodup_map hids hsecond hgate hid]

theorem find_cons (directory : String) (gate : Gate) (gates : List Gate) (id : String) :
    find ⟨directory, gate :: gates⟩ id =
      if id = gate.id then some gate else find ⟨directory, gates⟩ id := by
  simp only [find, List.find?_cons, eq_comm (a := id)]
  split_ifs with hsame
  · rw [decide_eq_true hsame]
  · rw [decide_eq_false hsame]

/-- Every gate of the registry has a counter of its own. -/
structure Apart (registry : Registry) (storage : Storage) : Prop where
  kept : ∀ gate ∈ registry.gates, gate.cell < storage.cells.size
  own : ∀ one ∈ registry.gates, ∀ other ∈ registry.gates, one.cell = other.cell →
    one.id = other.id

/-- Publishing to an open gate, forwards, changes its value and no other. -/
theorem Apart.publish {registry : Registry} {storage : Storage} (h : registry.Apart storage)
    {id : String} {gate : Gate} (hgate : registry.find id = some gate) {index : Int}
    (hforward : registry.valueOf storage id ≤ index) :
    gate.publish storage index = .ok (storage.setCell gate.cell index) ∧
      registry.Apart (storage.setCell gate.cell index) ∧
      ∀ other, registry.valueOf (storage.setCell gate.cell index) other =
        if other = id then index else registry.valueOf storage other := by
  obtain ⟨hmember, rfl⟩ := find_mem hgate
  have hlt := h.kept gate hmember
  have hread : registry.valueOf storage gate.id = gate.read storage := by simp [valueOf, hgate]
  have hcell := Storage.cell_setCell hlt index
  refine ⟨?_, ⟨?_, h.own⟩, ?_⟩
  · simp only [Gate.publish, ← hread, if_pos hforward]
  · intro other hother
    exact Nat.lt_of_lt_of_eq (h.kept other hother) (Storage.size_setCounter ..).symm
  · intro other
    by_cases hsame : other = gate.id
    · subst hsame
      simp [valueOf, hgate, Gate.read, hcell]
    · rw [if_neg hsame]
      simp only [valueOf]
      cases hother : registry.find other with
      | none => rfl
      | some second =>
          obtain ⟨hmember', rfl⟩ := find_mem hother
          have hne : gate.cell ≠ second.cell := fun hcell =>
            hsame (h.own gate hmember second hmember' hcell).symm
          simp [Gate.read, hcell, Ne.symm hne]

section Sound

variable {registry : Registry} {storage : Storage} {place : Storage.Place}
  (h : registry.Sound storage place)

include h

theorem Sound.apart : registry.Apart storage := by
  refine ⟨h.cells, fun one hone other hother hcell => ?_⟩
  rw [List.inj_on_of_nodup_map h.distinct hone hother hcell]

/-- What opening the gate of a stage leaves. Gates that were open stay the same, no other gate is
opened and no gate changes its value. -/
structure Opens (registry : Registry) (storage : Storage) (place : Storage.Place) (stage : Nat)
    (after : Storage) (opened : Registry) (gate : Gate) : Prop where
  sound : opened.Sound after place
  directory : opened.directory = registry.directory
  found : opened.find (Gate.ofStage stage) = some gate
  kept : ∀ other second, registry.find (Gate.ofStage other) = some second →
    opened.find (Gate.ofStage other) = some second
  only : ∀ other, (opened.find (Gate.ofStage other)).isSome →
    other = stage ∨ (registry.find (Gate.ofStage other)).isSome
  values : ∀ other, opened.value after other = registry.value storage other

/-! ### The first open of a gate -/

def grown (storage : Storage) (place : Storage.Place) (stage : Nat) : Storage :=
  { storage with cells := storage.cells.push (some Gate.nothingCompleted) }.put
    (place ++ [Gate.fileOfStage stage]) (.counter storage.cells.size)

def added (registry : Registry) (storage : Storage) (stage : Nat) : Registry :=
  { registry with gates := ⟨Gate.ofStage stage, storage.cells.size⟩ :: registry.gates }

section New

variable {stage : Nat} (hnew : registry.find (Gate.ofStage stage) = none)

omit h in
private theorem find_added {other : Nat} (hother : other ≠ stage) :
    (registry.added storage stage).find (Gate.ofStage other) =
      registry.find (Gate.ofStage other) := by
  have hne : ¬ Gate.ofStage stage = Gate.ofStage other := fun hsame =>
    hother (Gate.ofStage_injective hsame).symm
  simp [added, find, hne]

include hnew

private theorem Sound.added : (registry.added storage stage).Sound (grown storage place stage)
    place := by
  have hfree := h.free stage hnew
  have hplace : place ++ [Gate.fileOfStage stage] ≠ [] := by simp
  have hnone : storage.find (place ++ [Gate.fileOfStage stage]) ≠ some .directory := by
    simp [hfree]
  have hfresh : ∀ gate ∈ registry.gates, gate.id ≠ Gate.ofStage stage := by
    simpa [find, List.find?_eq_none] using hnew
  constructor
  case housed =>
    exact h.housed.mono (Storage.directories_put
      { storage with cells := storage.cells.push (some Gate.nothingCompleted) } hplace hnone _) rfl
  case staged =>
    intro gate hgate
    rcases List.mem_cons.mp hgate with rfl | hold
    · exact ⟨stage, rfl⟩
    · exact h.staged gate hold
  case ids => simpa [Registry.added, h.ids] using hfresh
  case cells =>
    intro gate hgate
    simp only [grown, Storage.put, Array.size_push]
    rcases List.mem_cons.mp hgate with rfl | hold
    · exact Nat.lt_succ_self _
    · exact Nat.lt_succ_of_lt (h.cells gate hold)
  case distinct =>
    simp only [Registry.added, List.map_cons, List.nodup_cons, h.distinct, and_true, List.mem_map,
      not_exists, not_and]
    intro gate hgate
    exact Nat.ne_of_lt (h.cells gate hgate)
  case free =>
    intro other hother
    have hne : other ≠ stage := fun hsame => by simp [Registry.added, find, hsame] at hother
    rw [find_added hne] at hother
    have hfile : place ++ [Gate.fileOfStage other] ≠ place ++ [Gate.fileOfStage stage] := by
      simpa using fun hsame => hne (Gate.fileOfStage_injective hsame)
    rw [grown, Storage.find_put _ hplace, if_neg hfile]
    exact h.free other hother

/-- A new counter starts where a gate that is not open counts as standing. -/
private theorem Sound.value_added (other : Nat) :
    (registry.added storage stage).value (grown storage place stage) other =
      registry.value storage other := by
  by_cases hsame : other = stage
  · subst hsame
    rw [value, value, hnew]
    simp [Registry.added, grown, find, Gate.read, Storage.cell, Storage.counter, Storage.put]
  · simp only [value, find_added hsame]
    cases hgate : registry.find (Gate.ofStage other) with
    | none => rfl
    | some gate =>
        have hlt := h.cells gate (find_mem hgate).1
        have hne : gate.cell ≠ storage.cells.size := Nat.ne_of_lt hlt
        simp [grown, Gate.read, Storage.cell, Storage.counter, Storage.put, Array.getElem?_push,
          hne]

/-- No file stands at the gate's place, so a counter is made. -/
private theorem Sound.openNew {reached : Storage.Place}
    (hresolve : storage.resolve (Gate.file registry.directory (Gate.ofStage stage)) = .ok reached) :
    storage.openCounter (Gate.file registry.directory (Gate.ofStage stage))
        (some Gate.nothingCompleted) = .ok (grown storage place stage, storage.cells.size) ∧
      Opens registry storage place stage (grown storage place stage)
        (registry.added storage stage) ⟨Gate.ofStage stage, storage.cells.size⟩ := by
  have hreached := h.housed.resolve_name (Gate.fileOfStage_slash stage)
    (Gate.file_plain _) hresolve
  subst hreached
  have hfree := h.free stage hnew
  refine ⟨?_, h.added hnew, rfl, by simp [Registry.added, find], ?_, ?_, h.value_added hnew⟩
  · simp only [Storage.openCounter, hresolve, ok_bind, hfree]
    rfl
  · intro other second hsecond
    have hne : other ≠ stage := fun hsame => by simp [← hsame, hsecond] at hnew
    rw [find_added hne, hsecond]
  · intro other hother
    by_cases hsame : other = stage
    · exact .inl hsame
    · rw [find_added hsame] at hother
      exact .inr hother

end New

/-- Opening the gate of a stage changes no value. -/
theorem Sound.open {stage : Nat} {after : Storage} {opened : Registry} {gate : Gate}
    (hopen : registry.open storage (Gate.ofStage stage) = .ok (after, opened, gate)) :
    Opens registry storage place stage after opened gate := by
  simp only [Registry.open_eq] at hopen
  cases hfound : registry.find (Gate.ofStage stage) with
  | some present =>
      simp only [hfound] at hopen
      cases hopen
      exact ⟨h, rfl, hfound, fun _ _ hkept => hkept, fun _ hother => .inr hother, fun _ => rfl⟩
  | none =>
      simp only [hfound] at hopen
      cases hresolve : storage.resolve (Gate.file registry.directory (Gate.ofStage stage)) with
      | error refusal =>
          simp only [Storage.openCounter, hresolve, error_bind] at hopen
          cases hopen
      | ok reached =>
          obtain ⟨hcounter, hopens⟩ := Sound.openNew h hfound hresolve
          simp only [hcounter] at hopen
          cases hopen
          exact hopens

/-- The gate of a stage can be opened, unless the path to its file is too long. -/
theorem Sound.opens {stage : Nat} (hstage : stage ≤ maxStages)
    (hpath : (Gate.file registry.directory (Gate.ofStage stage)).utf8ByteSize ≤
      Storage.longestPath) :
    ∃ opened, registry.open storage (Gate.ofStage stage) = .ok opened := by
  cases hfound : registry.find (Gate.ofStage stage) with
  | some gate =>
      refine ⟨(storage, registry, gate), ?_⟩
      simp only [Registry.open_eq, hfound]
  | none =>
      have hresolve := h.housed.resolve_short (Gate.fileOfStage_slash stage) (Gate.file_plain _)
        (Gate.fileOfStage_zero stage) (Gate.fileOfStage_short stage hstage) hpath
      obtain ⟨hcounter, -⟩ := Sound.openNew h hfound hresolve
      refine ⟨(grown storage place stage, registry.added storage stage,
        ⟨Gate.ofStage stage, storage.cells.size⟩), ?_⟩
      simp only [Registry.open_eq, hfound, hcounter]
      rfl

/-- Publishing to the open gate of a stage, forwards, changes its value and no other. -/
theorem Sound.publish {stage : Nat} {gate : Gate} {index : Int}
    (hgate : registry.find (Gate.ofStage stage) = some gate)
    (hforward : registry.value storage stage ≤ index) :
    ∃ after, gate.publish storage index = .ok after ∧ registry.Sound after place ∧
      ∀ other, registry.value after other =
        if other = stage then index else registry.value storage other := by
  obtain ⟨hpublish, hapart, hvalues⟩ := h.apart.publish hgate hforward
  refine ⟨_, hpublish, ⟨h.housed.mono (fun _ hkept => hkept) rfl, h.staged, h.ids, hapart.kept,
    h.distinct, h.free⟩, fun other => ?_⟩
  apply (hvalues (Gate.ofStage other)).trans
  by_cases hsame : other = stage
  · rw [hsame, if_pos rfl, if_pos rfl]
  · rw [if_neg hsame, if_neg fun hids => hsame (Gate.ofStage_injective hids)]
    rfl

/-- The listing of the gates, when just those of so many stages are open and all have one value. -/
theorem Sound.snapshot_perm {stages : Nat} {value : Int}
    (hopened : ∀ stage, (registry.find (Gate.ofStage stage)).isSome →
      1 ≤ stage ∧ stage ≤ stages)
    (hvalue : ∀ stage, 1 ≤ stage → stage ≤ stages → registry.value storage stage = value)
    (hpassed : value ≠ Gate.nothingCompleted) : (registry.snapshot storage).Perm
      ((List.range stages).map fun number => (Gate.ofStage (number + 1), value)) := by
  apply (List.mergeSort_perm _ _).trans
  have hids : (registry.gates.map fun gate => (gate.id, gate.read storage)).Nodup := by
    apply List.Nodup.of_map Prod.fst
    rw [List.map_map]
    exact h.ids
  have hstages : ((List.range stages).map fun number =>
      (Gate.ofStage (number + 1), value)).Nodup := by
    apply List.nodup_range.map
    intro one other hsame
    have hnumbers := Gate.ofStage_injective (congrArg Prod.fst hsame)
    exact Nat.succ.inj hnumbers
  apply (List.perm_ext_iff_of_nodup hids hstages).mpr
  intro entry
  simp only [List.mem_map, List.mem_range]
  constructor
  · rintro ⟨gate, hgate, rfl⟩
    obtain ⟨stage, hid⟩ := h.staged gate hgate
    have hfound := find_of_mem h.ids hgate
    rw [hid] at hfound
    obtain ⟨hfirst, hlast⟩ := hopened stage (by simp [hfound])
    have hread := hvalue stage hfirst hlast
    simp only [Registry.value, hfound, Option.map_some, Option.getD_some] at hread
    exact ⟨stage - 1, by omega, by rw [Nat.sub_add_cancel hfirst, hid, hread]⟩
  · rintro ⟨number, hnumber, rfl⟩
    have hread := hvalue (number + 1) (by omega) (by omega)
    cases hfound : registry.find (Gate.ofStage (number + 1)) with
    | none =>
        rw [Registry.value, hfound] at hread
        exact absurd hread.symm hpassed
    | some gate =>
        simp only [Registry.value, hfound, Option.map_some, Option.getD_some] at hread
        obtain ⟨hgate, hid⟩ := find_mem hfound
        exact ⟨gate, hgate, by rw [hid, hread]⟩

end Sound

end Registry

end GatedPipeline
