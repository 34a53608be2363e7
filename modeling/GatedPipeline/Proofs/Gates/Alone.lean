import GatedPipeline.Proofs.Gates.Sharing

/-!
One registry that has its directory to itself. Its ids may be paths, and what counts is the file to
which an id leads: the gates of a registry have one counter exactly where their ids lead to one
file. So what is done with one id changes the values of that file's ids and no others. It takes a
value back only by the first open of an id, which resets the counter for the ids that were open
before.
-/

namespace GatedPipeline

/-- Below a directory two ids lead to one file. -/
def Gates.OneFile (storage : Storage) (directory one other : String) : Prop :=
  ∃ place, storage.resolve (Gate.file directory one) = .ok place ∧
    storage.resolve (Gate.file directory other) = .ok place

namespace Gates.OneFile

variable {storage : Storage} {directory one other : String}

instance : Decidable (OneFile storage directory one other) :=
  decidable_of_iff (∃ place, place ∈ (storage.resolve (Gate.file directory one)).toOption ∧
    storage.resolve (Gate.file directory other) = .ok place) <| by
      cases hone : storage.resolve (Gate.file directory one) <;>
        simp [OneFile, hone, Except.toOption]

/-- Names lead to one file only if they are the same. -/
theorem eq_of_names (h : OneFile storage directory one other) (hone : '/' ∉ one.toList)
    (hother : '/' ∉ other.toList) : one = other := by
  have hshared : Shared storage [directory] := by
    intro first hfirst second hsecond
    rw [List.mem_singleton.mp hfirst, List.mem_singleton.mp hsecond]
    exact .inl rfl
  obtain ⟨base, hbase⟩ := hshared.base
  have hplace : ∀ {id place}, '/' ∉ id.toList →
      storage.resolve (Gate.file directory id) = .ok place → place = base ++ [id ++ ".gate"] :=
    fun hid hresolve => hbase directory (List.mem_singleton_self directory) _ _
      (Gate.file_slash hid) (Gate.file_plain _) hresolve
  obtain ⟨place, hresolve, hresolve'⟩ := h
  have hsame := (hplace hone hresolve).symm.trans (hplace hother hresolve')
  simpa using hsame

end Gates.OneFile

namespace Registry

open Gates (OneFile)

theorem valueOf_found {registry : Registry} {storage : Storage} {id : String} {gate : Gate}
    (h : registry.find id = some gate) : registry.valueOf storage id = gate.read storage := by
  simp [valueOf, h]

theorem valueOf_absent {registry : Registry} {storage : Storage} {id : String}
    (h : registry.find id = none) : registry.valueOf storage id = Gate.nothingCompleted := by
  simp [valueOf, h]

/-- A registry over files that were `initial` when it was made and that only its own acts have
changed since. No directory has been made or removed, and the counter of each gate is the one in the
file to which the gate's id led at the start. No such counter stands below the value of a fresh gate
and none of their files is empty. -/
structure Alone (initial : Storage) (registry : Registry) (storage : Storage) : Prop where
  home : storage.home = initial.home
  standing : ∀ place, storage.find place = some .directory ↔ initial.find place = some .directory
  numbered : storage.Numbered
  ids : (registry.gates.map Gate.id).Nodup
  files : ∀ gate ∈ registry.gates, ∃ place,
    initial.resolve (Gate.file registry.directory gate.id) = .ok place ∧
      storage.find place = some (.counter gate.cell)
  stands : ∀ gate ∈ registry.gates, ∃ value, storage.counter gate.cell = some value ∧
    Gate.nothingCompleted ≤ value

/-- What is done with one id by an open and perhaps a publish that goes through. The ids of other
files keep their values, no other id is opened, and no value is taken back except by a first open.
-/
structure Moves (initial : Storage) (id : String) (published : Option Int) (registry : Registry)
    (storage : Storage) (later : Registry) (after : Storage) : Prop where
  alone : later.Alone initial after
  directory : later.directory = registry.directory
  kept : ∀ other gate, registry.find other = some gate → later.find other = some gate
  only : ∀ other, (later.find other).isSome → other = id ∨ (registry.find other).isSome
  apart : ∀ other, ¬ OneFile initial registry.directory id other →
    later.valueOf after other = registry.valueOf storage other
  own : later.valueOf after id = published.getD (registry.valueOf storage id)
  forward : ∀ index ∈ published, registry.valueOf storage id ≤ index
  again : (registry.find id).isSome ∨ later.find id = none → ∀ other,
    registry.valueOf storage other ≤ later.valueOf after other

section Alone

variable {initial storage : Storage} {registry : Registry} (h : registry.Alone initial storage)

include h

/-- Two gates have one counter exactly if their ids lead to one file. -/
theorem Alone.cell_iff {one other : Gate} (hone : one ∈ registry.gates)
    (hother : other ∈ registry.gates) :
    one.cell = other.cell ↔ OneFile initial registry.directory one.id other.id := by
  obtain ⟨first, hfirst, hfile⟩ := h.files one hone
  obtain ⟨second, hsecond, hfile'⟩ := h.files other hother
  constructor
  · intro hcell
    rw [hcell] at hfile
    obtain rfl := h.numbered.own hfile hfile'
    exact ⟨first, hfirst, hsecond⟩
  · rintro ⟨place, hplace, hplace'⟩
    obtain rfl : first = place := Except.ok.inj (hfirst.symm.trans hplace)
    obtain rfl : second = first := Except.ok.inj (hsecond.symm.trans hplace')
    rw [hfile, Option.some.injEq, Storage.Node.counter.injEq] at hfile'
    exact hfile'

/-- Open ids of one file have one value. -/
theorem Alone.together {one other : String} (hfile : OneFile initial registry.directory one other)
    (hone : (registry.find one).isSome) (hother : (registry.find other).isSome) :
    registry.valueOf storage one = registry.valueOf storage other := by
  obtain ⟨first, hfirst⟩ := Option.isSome_iff_exists.mp hone
  obtain ⟨second, hsecond⟩ := Option.isSome_iff_exists.mp hother
  obtain ⟨hgate, rfl⟩ := find_mem hfirst
  obtain ⟨hgate', rfl⟩ := find_mem hsecond
  rw [valueOf_found hfirst, valueOf_found hsecond, Gate.read, Gate.read,
    (h.cell_iff hgate hgate').mpr hfile]

theorem Alone.floor {gate : Gate} (hgate : gate ∈ registry.gates) :
    Gate.nothingCompleted ≤ gate.read storage := by
  obtain ⟨value, hvalue, hfloor⟩ := h.stands gate hgate
  rw [Gate.read, Storage.cell, hvalue]
  exact hfloor

theorem Alone.unmoved (id : String) : Moves initial id none registry storage registry storage :=
  ⟨h, rfl, fun _ _ hfound => hfound, fun _ hopen => .inr hopen, fun _ _ => rfl, rfl,
    fun _ hnone => absurd hnone (Option.not_mem_none _), fun _ _ => Int.le_refl _⟩

/-- A publish forwards to an open gate. -/
theorem Alone.set {gate : Gate} (hgate : gate ∈ registry.gates) {index : Int}
    (hforward : gate.read storage ≤ index) :
    Moves initial gate.id (some index) registry storage registry
      (storage.setCell gate.cell index) := by
  obtain ⟨file, hleads, hfile⟩ := h.files gate hgate
  have hcell := Storage.cell_setCell (h.numbered.kept hfile) index
  have hfound := find_of_mem h.ids hgate
  have hread : ∀ other ∈ registry.gates, other.read (storage.setCell gate.cell index) =
      if other.cell = gate.cell then index else other.read storage :=
    fun other _ => hcell other.cell
  have hrises : ∀ other ∈ registry.gates,
      other.read storage ≤ other.read (storage.setCell gate.cell index) := by
    intro other hother
    rw [hread other hother]
    split_ifs with hsame
    · rwa [Gate.read, hsame]
    · exact Int.le_refl _
  have halone : registry.Alone initial (storage.setCell gate.cell index) := by
    refine { h with
      numbered := h.numbered.setCounter gate.cell (some index)
      stands := fun other hother => ?_ }
    rw [Storage.setCell, Storage.counter_setCounter (h.numbered.kept hfile)]
    split_ifs
    · exact ⟨index, rfl, Int.le_trans (h.floor hgate) hforward⟩
    · exact h.stands other hother
  refine ⟨halone, rfl, fun _ _ hkept => hkept, fun _ hopen => .inr hopen, fun other hother => ?_,
    ?_, ?_, fun _ other => ?_⟩
  · cases hsecond : registry.find other with
    | none => rw [valueOf_absent hsecond, valueOf_absent hsecond]
    | some second =>
        obtain ⟨hmember, rfl⟩ := find_mem hsecond
        rw [valueOf_found hsecond, valueOf_found hsecond, hread second hmember, if_neg]
        intro hsame
        exact hother ((h.cell_iff hgate hmember).mp hsame.symm)
  · rw [valueOf_found hfound, hread gate hgate, if_pos rfl]
    rfl
  · rintro _ ⟨⟩
    rwa [valueOf_found hfound]
  · cases hsecond : registry.find other with
    | none =>
        rw [valueOf_absent hsecond, valueOf_absent hsecond]
    | some second =>
        rw [valueOf_found hsecond, valueOf_found hsecond]
        exact hrises second (find_mem hsecond).1

/-- The first open of an id sets the counter of its file to `-1`. -/
theorem Alone.first {id : String} (hnew : registry.find id = none) {after : Storage} {cell : Nat}
    (hopen : storage.openCounter (Gate.file registry.directory id) (some Gate.nothingCompleted) =
      .ok (after, cell)) : Moves initial id none registry storage
        { registry with gates := ⟨id, cell⟩ :: registry.gates } after := by
  obtain ⟨place, hresolve, hfile, hcounted⟩ := h.numbered.openCounter_ok hopen
  have hleads : initial.resolve (Gate.file registry.directory id) = .ok place :=
    Storage.resolve_mono hresolve (fun place => (h.standing place).mp) h.home.symm
  have hfind := find_cons registry.directory ⟨id, cell⟩ registry.gates
  have hclosed : ∀ gate ∈ registry.gates, gate.id ≠ id := by
    simpa [find, List.find?_eq_none] using hnew
  -- the gates that were open: their counters stay, and one of the same file is reset
  have hold : ∀ gate ∈ registry.gates, (∃ place,
      initial.resolve (Gate.file registry.directory gate.id) = .ok place ∧
        after.find place = some (.counter gate.cell)) ∧
      (∃ value, after.counter gate.cell = some value ∧ Gate.nothingCompleted ≤ value) ∧
      (¬ OneFile initial registry.directory id gate.id → gate.read after = gate.read storage) := by
    intro gate hgate
    obtain ⟨reached, hreached, hcounter⟩ := h.files gate hgate
    by_cases hsame : reached = place
    · subst hsame
      have hcell := hcounted.same _ hcounter
      refine ⟨⟨reached, hreached, hcell ▸ hcounted.here⟩, ?_,
        fun hother => absurd ⟨reached, hleads, hreached⟩ hother⟩
      rw [hcell]
      exact ⟨Gate.nothingCompleted, hcounted.content, Int.le_refl _⟩
    · refine ⟨⟨reached, hreached, (hcounted.others reached hsame).trans hcounter⟩, ?_,
        fun _ => hcounted.values reached gate.cell hsame hcounter⟩
      rw [hcounted.contents reached gate.cell hsame hcounter]
      exact h.stands gate hgate
  constructor
  case alone =>
    constructor
    case home => exact hcounted.home.trans h.home
    case standing => exact fun other => (hcounted.directories hfile other).trans (h.standing other)
    case numbered => exact hcounted.numbered
    case ids => simpa [h.ids] using hclosed
    case files =>
      intro gate hgate
      rcases List.mem_cons.mp hgate with rfl | hbefore
      · exact ⟨place, hleads, hcounted.here⟩
      · exact (hold gate hbefore).1
    case stands =>
      intro gate hgate
      rcases List.mem_cons.mp hgate with rfl | hbefore
      · exact ⟨Gate.nothingCompleted, hcounted.content, Int.le_refl _⟩
      · exact (hold gate hbefore).2.1
  case directory => rfl
  case kept =>
    intro other gate hfound
    rw [hfind, if_neg, hfound]
    rintro rfl
    rw [hnew] at hfound
    cases hfound
  case only =>
    intro other hother
    rw [hfind] at hother
    split_ifs at hother with hsame
    · exact .inl hsame
    · exact .inr hother
  case apart =>
    intro other hother
    have hne : other ≠ id := by
      rintro rfl
      exact hother ⟨place, hleads, hleads⟩
    have hsame : Registry.find { registry with gates := ⟨id, cell⟩ :: registry.gates } other =
        registry.find other := (hfind other).trans (if_neg hne)
    cases hfound : registry.find other with
    | none => rw [valueOf_absent hfound, valueOf_absent (hsame.trans hfound)]
    | some gate =>
        obtain ⟨hgate, rfl⟩ := find_mem hfound
        rw [valueOf_found hfound, valueOf_found (hsame.trans hfound)]
        exact (hold gate hgate).2.2 hother
  case own =>
    have hsame := (hfind id).trans (if_pos rfl)
    rw [valueOf_found hsame, valueOf_absent hnew]
    exact hcounted.value
  case forward => exact fun _ hnone => absurd hnone (Option.not_mem_none _)
  case again =>
    rintro (hbefore | hafter)
    · rw [hnew] at hbefore
      cases hbefore
    · rw [hfind, if_pos rfl] at hafter
      cases hafter

end Alone

section Moves

variable {initial storage middle after : Storage} {id : String} {published : Option Int}
  {registry opened later : Registry}

/-- A publish behind an open. -/
theorem Moves.trans (h : Moves initial id none registry storage opened middle)
    (hnext : Moves initial id published opened middle later after) :
    Moves initial id published registry storage later after := by
  have hsame : opened.valueOf middle id = registry.valueOf storage id := h.own
  constructor
  case alone => exact hnext.alone
  case directory => exact hnext.directory.trans h.directory
  case kept => exact fun other gate hfound => hnext.kept other gate (h.kept other gate hfound)
  case only =>
    intro other hother
    rcases hnext.only other hother with hown | hbefore
    · exact .inl hown
    · exact h.only other hbefore
  case apart =>
    intro other hother
    rw [← h.apart other hother]
    exact hnext.apart other (h.directory ▸ hother)
  case own => rw [hnext.own, hsame]
  case forward =>
    intro index hindex
    rw [← hsame]
    exact hnext.forward index hindex
  case again =>
    rintro (hopen | hclosed) other
    · obtain ⟨gate, hfound⟩ := Option.isSome_iff_exists.mp hopen
      have hstill : (opened.find id).isSome := by simp [h.kept id gate hfound]
      exact Int.le_trans (h.again (.inl hopen) other) (hnext.again (.inl hstill) other)
    · have hnever : opened.find id = none := by
        cases hfound : opened.find id with
        | none => rfl
        | some gate =>
            rw [hnext.kept id gate hfound] at hclosed
            cases hclosed
      exact Int.le_trans (h.again (.inr hnever) other) (hnext.again (.inr hclosed) other)

/-- Whether it is the first or not, an open of an id gives its gate. -/
theorem Alone.open (h : registry.Alone initial storage) {gate : Gate}
    (hopen : registry.open storage id = .ok (after, opened, gate)) :
    Moves initial id none registry storage opened after ∧ opened.find id = some gate := by
  simp only [Registry.open_eq] at hopen
  cases hfound : registry.find id with
  | some present =>
      simp only [hfound] at hopen
      cases hopen
      exact ⟨h.unmoved id, hfound⟩
  | none =>
      simp only [hfound] at hopen
      split at hopen
      · cases hopen
      · rename_i cell hcounter
        cases hopen
        exact ⟨h.first hfound hcounter, (find_cons _ _ _ id).trans (if_pos rfl)⟩

/-- A publish to an open gate that goes through. -/
theorem Alone.publish (h : registry.Alone initial storage) {gate : Gate}
    (hgate : gate ∈ registry.gates) {index : Int}
    (hpublish : gate.publish storage index = .ok after) :
    Moves initial gate.id (some index) registry storage registry after := by
  simp only [Gate.publish] at hpublish
  split at hpublish
  · rename_i hforward
    cases hpublish
    exact h.set hgate hforward
  · cases hpublish

end Moves

end Registry

namespace Gates.Sharing

open Registry (Alone Moves)

/-- One registry, and the gates that it has handed out. -/
structure Lone (initial : Storage) (sharing : Sharing) (registry : Registry) : Prop where
  only : sharing.registries = [registry]
  alone : registry.Alone initial sharing.storage
  held : ∀ handed ∈ sharing.gates, handed.2 ∈ registry.gates

/-- The id that an act opens or publishes to. -/
def subject (sharing : Sharing) (act : Act) : Option String :=
  match act with
  | .publishTo number _ => (sharing.gates[number]?).map fun handed => handed.2.id
  | act => act.target.map Prod.snd

/-- The value that an act publishes to an id, if the act is one that does and goes through. -/
def publishes (sharing : Sharing) (id : String) (act : Act) : Option Int :=
  match act with
  | .publish _ _ index | .publishTo _ index =>
      if sharing.subject act = some id ∧ (sharing.act act).2 = .done then some index else none
  | _ => none

/-- What an act leaves of a lone registry. The registry and its files move for the id of the act,
and an act without an id moves them for none. -/
structure Leaves (initial : Storage) (sharing : Sharing) (registry : Registry) (act : Act)
    (later : Registry) : Prop where
  lone : (sharing.act act).1.Lone initial later
  handed : sharing.gates <+: (sharing.act act).1.gates
  moves : ∀ id, (∀ other ∈ sharing.subject act, other = id) →
    Moves initial id (sharing.publishes id act) registry sharing.storage later
      (sharing.act act).1.storage

section Lone

variable {initial : Storage} {sharing : Sharing} {registry : Registry}

theorem begin_lone (hnumbered : initial.Numbered) (directory : String) :
    Lone initial ⟨initial, [⟨directory, []⟩], []⟩ ⟨directory, []⟩ :=
  ⟨rfl, ⟨rfl, fun _ => Iff.rfl, hnumbered, List.nodup_nil, nofun, nofun⟩, nofun⟩

variable (h : sharing.Lone initial registry)

include h

theorem Lone.found {number : Nat} {found : Registry}
    (hfound : sharing.registries[number]? = some found) : number = 0 ∧ found = registry := by
  rw [h.only] at hfound
  obtain ⟨hlt, hsame⟩ := List.getElem?_eq_some_iff.mp hfound
  obtain rfl : number = 0 := Nat.lt_one_iff.mp hlt
  exact ⟨rfl, hsame.symm⟩

theorem Lone.set_only (later : Registry) : sharing.registries.set 0 later = [later] := by
  rw [h.only]
  rfl

/-- No act ends the process. -/
theorem Lone.act_eq (act : Act) : sharing.act act = sharing.perform .sound act := by
  have hfull : ∀ gate ∈ registry.gates, sharing.isEmpty gate = false := by
    intro gate hgate
    obtain ⟨value, hvalue, -⟩ := h.alone.stands gate hgate
    rw [isEmpty, hvalue]
    rfl
  have htarget : ∀ (number : Nat) (id : String),
      ((sharing.registries[number]?).bind (Registry.find · id)).any sharing.isEmpty = false := by
    intro number id
    cases hregistry : sharing.registries[number]? with
    | none => rfl
    | some found =>
        obtain ⟨-, rfl⟩ := h.found hregistry
        cases hgate : found.find id with
        | none => simp [hgate]
        | some gate => simp [hgate, hfull gate (Registry.find_mem hgate).1]
  have hhanded : ∀ number : Nat,
      ((sharing.gates[number]?).any fun handed => sharing.isEmpty handed.2) = false := by
    intro number
    cases hgate : sharing.gates[number]? with
    | none => rfl
    | some handed => exact hfull handed.2 (h.held handed (List.mem_of_getElem? hgate))
  have hkills : sharing.kills act = false := by
    cases act with
    | register directory | same one other => rfl
    | «open» number id | publish number id index | read number id => exact htarget number id
    | publishTo number index | readFrom number | hasCompleted number index => exact hhanded number
    | snapshot number =>
        cases hregistry : sharing.registries[number]? with
        | none => simp [kills, hregistry]
        | some found =>
            obtain ⟨-, rfl⟩ := h.found hregistry
            simpa [kills, hregistry] using hfull
  rw [Sharing.act, actOn, hkills, if_neg Bool.false_ne_true]

/-- An act that is refused, or only looks, changes nothing. -/
theorem Lone.rests {act : Act} (hsame : (sharing.act act).1 = sharing)
    (hnothing : ∀ id, sharing.publishes id act = none) :
    Leaves initial sharing registry act registry := by
  have hgates : (sharing.act act).1.gates = sharing.gates := congrArg Sharing.gates hsame
  refine ⟨?_, hgates ▸ List.prefix_rfl, fun id _ => ?_⟩
  · rw [hsame]
    exact h
  · rw [hsame, hnothing id]
    exact h.alone.unmoved id

/-- An act for an id moves the registry and the files, and may hand out a gate. -/
theorem Lone.moved {act : Act} {id : String} (hsubject : sharing.subject act = some id)
    {later : Registry} {after : Storage} {new : List (Nat × Gate)}
    (hact : (sharing.act act).1 = ⟨after, [later], sharing.gates ++ new⟩)
    (hmoves : Moves initial id (sharing.publishes id act) registry sharing.storage later after)
    (hnew : ∀ handed ∈ new, handed.2 ∈ later.gates) :
    Leaves initial sharing registry act later := by
  constructor
  case lone =>
    rw [hact]
    refine ⟨rfl, hmoves.alone, fun handed hhanded => ?_⟩
    rcases List.mem_append.mp hhanded with hbefore | hlast
    · have hfound := Registry.find_of_mem h.alone.ids (h.held handed hbefore)
      exact (Registry.find_mem (hmoves.kept _ _ hfound)).1
    · exact hnew handed hlast
  case handed =>
    rw [hact]
    exact List.prefix_append _ _
  case moves =>
    intro other hown
    obtain rfl : id = other := hown id hsubject
    rw [hact]
    exact hmoves

private theorem Lone.opens (number : Nat) (id : String) :
    ∃ later, Leaves initial sharing registry (.open number id) later := by
  cases hregistry : sharing.registries[number]? with
  | none =>
      refine ⟨registry, h.rests ?_ fun _ => rfl⟩
      simp only [h.act_eq, perform, Sharing.open, hregistry]
  | some found =>
      obtain ⟨rfl, rfl⟩ := h.found hregistry
      cases hopen : found.open sharing.storage id with
      | error failure =>
          refine ⟨found, h.rests ?_ fun _ => rfl⟩
          simp only [h.act_eq, perform, Sharing.open, hregistry, Registry.openOn_sound, hopen]
      | ok opened =>
          obtain ⟨after, later, gate⟩ := opened
          obtain ⟨hmoves, hgate⟩ := h.alone.open hopen
          have hact : (sharing.act (.open 0 id)).1 =
              ⟨after, [later], sharing.gates ++ [(0, gate)]⟩ := by
            simp only [h.act_eq, perform, Sharing.open, hregistry, Registry.openOn_sound, hopen,
              h.set_only]
          refine ⟨later, h.moved rfl hact hmoves fun handed hnew => ?_⟩
          obtain rfl := List.mem_singleton.mp hnew
          exact (Registry.find_mem hgate).1

private theorem Lone.reads (number : Nat) (id : String) :
    ∃ later, Leaves initial sharing registry (.read number id) later := by
  cases hregistry : sharing.registries[number]? with
  | none =>
      refine ⟨registry, h.rests ?_ fun _ => rfl⟩
      simp only [h.act_eq, perform, Sharing.read, hregistry]
  | some found =>
      obtain ⟨rfl, rfl⟩ := h.found hregistry
      cases hopen : found.open sharing.storage id with
      | error failure =>
          refine ⟨found, h.rests ?_ fun _ => rfl⟩
          simp only [h.act_eq, perform, Sharing.read, Registry.read, hregistry,
            Registry.openOn_sound, hopen]
      | ok opened =>
          obtain ⟨after, later, gate⟩ := opened
          obtain ⟨hmoves, -⟩ := h.alone.open hopen
          have hact : (sharing.act (.read 0 id)).1 = ⟨after, [later], sharing.gates ++ []⟩ := by
            simp only [h.act_eq, perform, Sharing.read, Registry.read, hregistry,
              Registry.openOn_sound, hopen, h.set_only, List.append_nil]
          exact ⟨later, h.moved rfl hact hmoves (List.forall_mem_nil _)⟩

/-- A publish that breaks keeps the open that came before it. -/
private theorem Lone.publishesOpen (number : Nat) (id : String) (index : Int) :
    ∃ later, Leaves initial sharing registry (.publish number id index) later := by
  cases hregistry : sharing.registries[number]? with
  | none =>
      refine ⟨registry, h.rests ?_ fun other => ?_⟩
      · simp only [h.act_eq, perform, Sharing.publish, hregistry]
      · simp [publishes, h.act_eq, perform, Sharing.publish, hregistry]
  | some found =>
      obtain ⟨rfl, rfl⟩ := h.found hregistry
      cases hopen : found.open sharing.storage id with
      | error failure =>
          have hact : sharing.act (.publish 0 id index) = (sharing, .refused failure) := by
            simp only [h.act_eq, perform, Sharing.publish, Registry.publish, hregistry,
              Registry.openOn_sound, hopen, set_same hregistry]
            rfl
          exact ⟨found, h.rests (by rw [hact]) fun other => by simp [publishes, hact]⟩
      | ok opened =>
          obtain ⟨middle, later, gate⟩ := opened
          obtain ⟨hmoves, hfound⟩ := h.alone.open hopen
          obtain ⟨hgate, rfl⟩ := Registry.find_mem hfound
          cases hpublish : gate.publish middle index with
          | error fault =>
              have hact : sharing.act (.publish 0 gate.id index) =
                  (⟨middle, [later], sharing.gates ++ []⟩, .broken fault) := by
                simp only [h.act_eq, perform, Sharing.publish, Registry.publish, hregistry,
                  Registry.openOn_sound, hopen, hpublish, h.set_only, List.append_nil]
                rfl
              have hnothing : sharing.publishes gate.id (.publish 0 gate.id index) = none := by
                simp [publishes, hact]
              exact ⟨later, h.moved rfl (congrArg Prod.fst hact) (hnothing ▸ hmoves)
                (List.forall_mem_nil _)⟩
          | ok after =>
              have hact : sharing.act (.publish 0 gate.id index) =
                  (⟨after, [later], sharing.gates ++ []⟩, .done) := by
                simp only [h.act_eq, perform, Sharing.publish, Registry.publish, hregistry,
                  Registry.openOn_sound, hopen, hpublish, h.set_only, List.append_nil]
                rfl
              have hindex : sharing.publishes gate.id (.publish 0 gate.id index) = some index := by
                simp [publishes, hact, subject, Act.target]
              have hboth := hmoves.trans (hmoves.alone.publish hgate hpublish)
              exact ⟨later, h.moved rfl (congrArg Prod.fst hact) (hindex ▸ hboth)
                (List.forall_mem_nil _)⟩

private theorem Lone.publishesTo (number : Nat) (index : Int) :
    ∃ later, Leaves initial sharing registry (.publishTo number index) later := by
  cases hhanded : sharing.gates[number]? with
  | none =>
      refine ⟨registry, h.rests ?_ fun other => ?_⟩
      · simp only [h.act_eq, perform, Sharing.publishTo, hhanded]
      · simp [publishes, h.act_eq, perform, Sharing.publishTo, hhanded]
  | some handed =>
      obtain ⟨holder, gate⟩ := handed
      have hgate := h.held _ (List.mem_of_getElem? hhanded)
      cases hpublish : gate.publish sharing.storage index with
      | error fault =>
          have hact : sharing.act (.publishTo number index) = (sharing, .broken fault) := by
            simp only [h.act_eq, perform, Sharing.publishTo, hhanded, hpublish]
          exact ⟨registry, h.rests (by rw [hact]) fun other => by simp [publishes, hact]⟩
      | ok after =>
          have hact : sharing.act (.publishTo number index) =
              (⟨after, [registry], sharing.gates ++ []⟩, .done) := by
            simp only [h.act_eq, perform, Sharing.publishTo, hhanded, hpublish, h.only,
              List.append_nil]
          have hsubject : sharing.subject (.publishTo number index) = some gate.id := by
            simp [subject, hhanded]
          have hindex : sharing.publishes gate.id (.publishTo number index) = some index := by
            simp [publishes, hact, hsubject]
          have hmoves := h.alone.publish hgate hpublish
          exact ⟨registry, h.moved hsubject (congrArg Prod.fst hact) (hindex ▸ hmoves)
            (List.forall_mem_nil _)⟩

theorem Lone.act {act : Act} (hact : act.directory = none) :
    ∃ later, Leaves initial sharing registry act later := by
  cases act with
  | register directory => cases hact
  | «open» number id => exact h.opens number id
  | publish number id index => exact h.publishesOpen number id index
  | read number id => exact h.reads number id
  | publishTo number index => exact h.publishesTo number index
  | snapshot number | readFrom number | hasCompleted number index | same one other =>
      exact ⟨registry, h.rests (congrArg Prod.fst (h.act_eq _)) fun _ => rfl⟩

end Lone

end Gates.Sharing

end GatedPipeline
