import Mathlib.Data.String.Basic
import GatedPipeline.Proofs.Gates
import GatedPipeline.Proofs.Gates.Board
import GatedPipeline.Proofs.Storage.Counters

/-!
Registries over one directory follow the board. All gates of an id have the counter in the one file
of that id, and the counters of different ids are different, so what is set through one gate is read
through all gates of its id and through no other.
-/

namespace GatedPipeline.Gates

def Shared (storage : Storage) (directories : List String) : Prop :=
  ∀ one ∈ directories, ∀ other ∈ directories, one = other ∨
    ∃ place, storage.resolve one = .ok place ∧ storage.resolve other = .ok place

/-- How the file of an id's gate cannot be opened. -/
def refusal (storage : Storage) (backing : Storage.Backing) (directory id : String) :
    Option Failure :=
  match backing.grant (storage.openCounter (Gate.file directory id) none) with
  | .error reason => some ⟨[.creatingGate (Gate.file directory id)], .storage reason⟩
  | .ok _ => none

/-- Where the system refuses nothing of its own, a first open is refused for its path or not at
all. -/
theorem refusal_sound {registry : Registry} {id : String} (hnew : registry.find id = none)
    (storage : Storage) : refusal storage .sound registry.directory id =
      match registry.open storage id with
      | .error failure => some failure
      | .ok _ => none := by
  cases hopen : Storage.Backing.sound.grant
      (storage.openCounter (Gate.file registry.directory id) none) with
  | error reason =>
      simp only [refusal, Registry.open, Registry.openOn, hnew, Gate.create_refused hopen, hopen]
  | ok opened =>
      simp only [refusal, Registry.open, Registry.openOn, hnew, Gate.create_opened hopen,
        Gate.spoiled_sound, hopen]

theorem refusal_of_open {registry : Registry} {storage : Storage} {id : String} {failure : Failure}
    (h : registry.open storage id = .error failure) :
    refusal storage .sound registry.directory id = some failure := by
  cases hfound : registry.find id with
  | some gate =>
      simp only [Registry.open_eq, hfound] at h
      cases h
  | none => rw [refusal_sound hfound, h]

/-! ### The directory -/

/-- Gates below any of the paths have their files at one place. -/
theorem Shared.base {storage : Storage} {directories : List String}
    (h : Shared storage directories) : ∃ base, ∀ directory ∈ directories, ∀ name reached,
      '/' ∉ name.toList → Storage.Plain name →
        storage.resolve (Storage.join directory name) = .ok reached → reached = base ++ [name] := by
  have hempty : ∀ place, storage.resolve "" ≠ .ok place := by
    intro place hresolve
    rw [Storage.resolve_empty] at hresolve
    cases hresolve
  by_cases hsome : ∃ one ∈ directories, ∃ base, storage.resolve one = .ok base
  · obtain ⟨one, hone, base, hbase⟩ := hsome
    refine ⟨base, fun directory hdirectory name reached hslash hplain hresolve => ?_⟩
    have hsame : storage.resolve directory = .ok base := by
      rcases h directory hdirectory one hone with rfl | ⟨place, hplace, hplace'⟩
      · exact hbase
      · rw [hplace, ← hplace', hbase]
    have hnamed : directory ≠ "" := by
      rintro rfl
      exact hempty base hsame
    obtain ⟨above, habove, hwalk⟩ := Storage.resolve_join hnamed hslash hresolve
    rw [hsame] at habove
    cases habove
    exact Storage.walk_plain hplain hwalk
  · refine ⟨storage.home, fun directory hdirectory name reached hslash hplain hresolve => ?_⟩
    by_cases hnamed : directory = ""
    · rw [hnamed, Storage.join_empty] at hresolve
      have hwalk := Storage.resolve_ok hresolve
      rw [Storage.isAbsolute_name hslash, if_neg Bool.false_ne_true,
        Storage.namesOf_name hslash] at hwalk
      exact Storage.walk_plain hplain hwalk
    · obtain ⟨above, habove, -⟩ := Storage.resolve_join hnamed hslash hresolve
      exact absurd ⟨directory, hdirectory, above, habove⟩ hsome

/-- Once one name leads somewhere, files made below the directory change no path to a name in it. -/
theorem Shared.stable {initial storage after : Storage} {directories : List String}
    (h : Shared initial directories)
    (hbefore : ∀ place, initial.find place = some .directory →
      storage.find place = some .directory)
    (hafter : ∀ place, storage.find place = some .directory → after.find place = some .directory)
    (hhome : storage.home = initial.home) (hhome' : after.home = storage.home)
    {one other name second : String} (hone : one ∈ directories) (hother : other ∈ directories)
    (hname : '/' ∉ name.toList) (hsecond : '/' ∉ second.toList) {reached : Storage.Place}
    (hresolve : storage.resolve (Storage.join one name) = .ok reached) :
    after.resolve (Storage.join other second) = storage.resolve (Storage.join other second) := by
  rcases h one hone other hother with rfl | ⟨place, hplace, hplace'⟩
  · exact Storage.resolve_beside hafter hhome' hname hsecond hresolve
  · have hnamed : ∀ path, initial.resolve path = .ok place → path ≠ "" := by
      rintro path hpath rfl
      rw [Storage.resolve_empty] at hpath
      cases hpath
    obtain ⟨above, habove, hwalk⟩ := Storage.resolve_join (hnamed one hplace) hname hresolve
    rw [Storage.resolve_mono hplace hbefore hhome] at habove
    cases habove
    exact Storage.resolve_join_stable hafter hhome' (hnamed other hplace') hsecond
      (Storage.resolve_mono hplace' hbefore hhome) (Storage.walk_stands hwalk)

/-! ### Registries beside the board -/

/-- Registries over files that were `initial` at the start, and the board that tells of them. No
directory has been made or removed and names below the given directories lead where they led. The
counter of a gate is the one in the file of its id at `base`, its content is what the board has for
the id, and a gate that was handed out is still in its registry. -/
structure Sharing.Follows (initial : Storage) (directories : List String) (base : Storage.Place)
    (sharing : Sharing) (board : Board) : Prop where
  home : sharing.storage.home = initial.home
  standing : ∀ place,
    sharing.storage.find place = some .directory ↔ initial.find place = some .directory
  paths : ∀ directory ∈ directories, ∀ name, '/' ∉ name.toList →
    sharing.storage.resolve (Storage.join directory name) =
      initial.resolve (Storage.join directory name)
  numbered : sharing.storage.Numbered
  shared : ∀ registry ∈ sharing.registries, registry.directory ∈ directories
  ids : ∀ registry ∈ sharing.registries, (registry.gates.map Gate.id).Nodup
  files : ∀ registry ∈ sharing.registries, ∀ gate ∈ registry.gates,
    sharing.storage.find (base ++ [gate.id ++ ".gate"]) = some (.counter gate.cell)
  contents : ∀ registry ∈ sharing.registries, ∀ gate ∈ registry.gates,
    sharing.storage.counter gate.cell = board.content gate.id
  registries : board.registries =
    sharing.registries.map fun registry => (registry.directory, registry.gates.map Gate.id)
  gates : board.gates = sharing.gates.map fun handed => (handed.1, handed.2.id)
  held : ∀ handed ∈ sharing.gates, ∃ registry, sharing.registries[handed.1]? = some registry ∧
    handed.2 ∈ registry.gates

structure Agrees (initial : Storage) (directories : List String) (base : Storage.Place)
    (mine : Sharing × Answer) (told : Board × Answer) : Prop where
  answer : mine.2 = told.2
  follows : mine.1.Follows initial directories base told.1

namespace Sharing

theorem set_same {sharing : Sharing} {number : Nat} {registry : Registry}
    (hregistry : sharing.registries[number]? = some registry) :
    sharing.registries.set number registry = sharing.registries := by
  obtain ⟨hlt, rfl⟩ := List.getElem?_eq_some_iff.mp hregistry
  exact List.set_getElem_self hlt

variable {initial : Storage} {directories : List String} {base : Storage.Place}
  {sharing : Sharing} {board : Board}
  (h : sharing.Follows initial directories base board)

include h

theorem Follows.registry {number : Nat} : board.registries[number]? =
    (sharing.registries[number]?).map fun registry =>
      (registry.directory, registry.gates.map Gate.id) := by
  rw [h.registries, List.getElem?_map]

theorem Follows.gate {number : Nat} : board.gates[number]? =
    (sharing.gates[number]?).map fun handed => (handed.1, handed.2.id) := by
  rw [h.gates, List.getElem?_map]

theorem Follows.value {registry : Registry} (hregistry : registry ∈ sharing.registries)
    {gate : Gate} (hgate : gate ∈ registry.gates) :
    gate.read sharing.storage = board.value gate.id := by
  rw [Gate.read, Storage.cell, h.contents registry hregistry gate hgate, Board.value]

theorem Follows.empty {registry : Registry} (hregistry : registry ∈ sharing.registries)
    {gate : Gate} (hgate : gate ∈ registry.gates) :
    sharing.isEmpty gate = board.isEmpty gate.id := by
  rw [Sharing.isEmpty, Board.isEmpty, h.contents registry hregistry gate hgate]

/-! ### Setting -/

/-- Setting a gate sets its id. -/
theorem Follows.set {registry : Registry} (hregistry : registry ∈ sharing.registries) {gate : Gate}
    (hgate : gate ∈ registry.gates) (value : Int) :
    Follows initial directories base
      { sharing with storage := sharing.storage.setCell gate.cell value }
      (board.set gate.id value) := by
  have hfile := h.files registry hregistry gate hgate
  have hcell := Storage.counter_setCounter (h.numbered.kept hfile) (some value)
  refine { h with
    paths := fun directory hdirectory name hslash => ?_
    numbered := h.numbered.setCounter gate.cell (some value)
    contents := ?_ }
  · rw [Storage.setCell, Storage.resolve_setCounter]
    exact h.paths directory hdirectory name hslash
  · intro another hanother second hsecond
    have hfile' := h.files another hanother second hsecond
    simp only [Storage.setCell, hcell, Board.set, Board.content_put]
    by_cases hid : second.id = gate.id
    · -- the counter is that of the same file
      rw [hid, hfile, Option.some.injEq, Storage.Node.counter.injEq] at hfile'
      rw [if_pos hfile'.symm, if_pos hid]
    · rw [if_neg hid, if_neg]
      · exact h.contents another hanother second hsecond
      · intro hsame
        rw [hsame] at hfile'
        have hplace := h.numbered.own hfile' hfile
        exact hid (by simpa using hplace)

theorem Follows.publish {registry : Registry} (hregistry : registry ∈ sharing.registries)
    {gate : Gate} (hgate : gate ∈ registry.gates) (index : Int) :
    (∃ fault, gate.publish sharing.storage index = .error fault ∧
      board.publishTo gate.id index = (board, .broken fault)) ∨
    ∃ storage after, gate.publish sharing.storage index = .ok storage ∧
      board.publishTo gate.id index = (after, .done) ∧
        Follows initial directories base { sharing with storage := storage } after := by
  simp only [Gate.publish, Board.publishTo, h.value hregistry hgate]
  by_cases hforward : board.value gate.id ≤ index
  · simp only [if_pos hforward]
    exact .inr ⟨_, _, rfl, rfl, h.set hregistry hgate index⟩
  · simp only [if_neg hforward]
    exact .inl ⟨_, rfl, rfl⟩

/-! ### Opening -/

/-- Whether a gate's file can be opened has not changed since the start. -/
theorem Follows.refusal_same {directory id : String} (hdirectory : directory ∈ directories)
    (hid : '/' ∉ id.toList) (backing : Storage.Backing) :
    refusal sharing.storage backing directory id = refusal initial backing directory id := by
  have hpath := h.paths directory hdirectory _ (Gate.file_slash hid)
  have hsame : ∀ reason,
      sharing.storage.openCounter (Gate.file directory id) none = .error reason ↔
        initial.openCounter (Gate.file directory id) none = .error reason := by
    intro reason
    simp only [Storage.openCounter_error, Gate.file, hpath, h.standing]
  cases hopening : backing.opening with
  | some reason => simp only [refusal, Storage.Backing.grant, hopening]
  | none =>
      simp only [refusal, Storage.Backing.grant, hopening]
      cases hinitial : initial.openCounter (Gate.file directory id) none with
      | error reason => rw [(hsame reason).mpr hinitial]
      | ok opened =>
          cases hnow : sharing.storage.openCounter (Gate.file directory id) none with
          | error reason =>
              rw [(hsame reason).mp hnow] at hinitial
              cases hinitial
          | ok opened => rfl

section Open

variable (hshared : Shared initial directories)
  (hbase : ∀ directory ∈ directories, ∀ name reached, '/' ∉ name.toList → Storage.Plain name →
    initial.resolve (Storage.join directory name) = .ok reached → reached = base ++ [name])
  {number : Nat} {registry : Registry} (hregistry : sharing.registries[number]? = some registry)
  {id : String}

include hregistry

/-- A registry that gives a gate it has changes nothing. -/
theorem Follows.again {gate : Gate} (hfound : registry.find id = some gate)
    (backing : Storage.Backing) :
    board.open (refusal initial) backing number id = (board, none) ∧
      Follows initial directories base
        { sharing with registries := sharing.registries.set number registry } board := by
  obtain ⟨hgate, hid⟩ := Registry.find_mem hfound
  have hopen : id ∈ registry.gates.map Gate.id := List.mem_map.mpr ⟨gate, hgate, hid⟩
  rw [set_same hregistry]
  refine ⟨?_, h⟩
  simp only [Board.open, h.registry, hregistry, Option.map_some, if_pos hopen]

/-- A gate whose counter is in place is added to its registry. -/
theorem Follows.add (hnew : registry.find id = none) {cell : Nat}
    (hfile : sharing.storage.find (base ++ [id ++ ".gate"]) = some (.counter cell))
    (hcontent : sharing.storage.counter cell = board.content id) :
    Follows initial directories base
      ⟨sharing.storage, sharing.registries.set number
        { registry with gates := ⟨id, cell⟩ :: registry.gates }, sharing.gates⟩
      { board with
        registries := board.registries.set number
          (registry.directory, id :: registry.gates.map Gate.id) } := by
  have hmember : registry ∈ sharing.registries := List.mem_of_getElem? hregistry
  have hgates : ∀ present ∈ sharing.registries.set number
      { registry with gates := ⟨id, cell⟩ :: registry.gates }, ∀ gate ∈ present.gates,
        gate = ⟨id, cell⟩ ∨ ∃ before ∈ sharing.registries, gate ∈ before.gates := by
    intro present hpresent gate hgate
    rcases List.mem_or_eq_of_mem_set hpresent with hbefore | rfl
    · exact .inr ⟨present, hbefore, hgate⟩
    · rcases List.mem_cons.mp hgate with rfl | hbefore
      · exact .inl rfl
      · exact .inr ⟨registry, hmember, hbefore⟩
  refine { h with
    shared := ?_, ids := ?_, files := ?_, contents := ?_, registries := ?_, held := ?_ }
  · intro present hpresent
    rcases List.mem_or_eq_of_mem_set hpresent with hbefore | rfl
    · exact h.shared present hbefore
    · exact h.shared registry hmember
  · intro present hpresent
    rcases List.mem_or_eq_of_mem_set hpresent with hbefore | rfl
    · exact h.ids present hbefore
    · have hfresh : ∀ gate ∈ registry.gates, gate.id ≠ id := by
        simpa [Registry.find, List.find?_eq_none] using hnew
      simpa [h.ids registry hmember] using hfresh
  · intro present hpresent gate hgate
    rcases hgates present hpresent gate hgate with rfl | ⟨before, hbefore, hold⟩
    · exact hfile
    · exact h.files before hbefore gate hold
  · intro present hpresent gate hgate
    rcases hgates present hpresent gate hgate with rfl | ⟨before, hbefore, hold⟩
    · exact hcontent
    · exact h.contents before hbefore gate hold
  · rw [h.registries, List.map_set]
    rfl
  · intro handed hhanded
    obtain ⟨present, hpresent, hgate⟩ := h.held handed hhanded
    by_cases hsame : handed.1 = number
    · rw [hsame, hregistry] at hpresent
      cases hpresent
      refine ⟨{ registry with gates := ⟨id, cell⟩ :: registry.gates }, ?_,
        List.mem_cons_of_mem _ hgate⟩
      obtain ⟨hlt, -⟩ := List.getElem?_eq_some_iff.mp hregistry
      rw [hsame]
      exact List.getElem?_set_self hlt
    · refine ⟨present, ?_, hgate⟩
      rw [← hpresent]
      exact List.getElem?_set_ne (Ne.symm hsame)

include hshared hbase

/-- Opening the file of an id sets the counter that all registries use for it. -/
theorem Follows.reset (hid : '/' ∉ id.toList) {content : Option Int} {after : Storage} {cell : Nat}
    (hopen : sharing.storage.openCounter (Gate.file registry.directory id) content =
      .ok (after, cell)) :
    Follows initial directories base { sharing with storage := after } (board.put id content) ∧
      after.find (base ++ [id ++ ".gate"]) = some (.counter cell) ∧
        after.counter cell = content := by
  have hmember : registry ∈ sharing.registries := List.mem_of_getElem? hregistry
  have hdirectory := h.shared registry hmember
  have hslash := Gate.file_slash hid
  obtain ⟨place, hresolve, hfile, hcounted⟩ := h.numbered.openCounter_ok hopen
  have hplace : place = base ++ [id ++ ".gate"] := by
    have hinitial := (h.paths registry.directory hdirectory _ hslash).symm.trans hresolve
    exact hbase registry.directory hdirectory _ place hslash (Gate.file_plain id) hinitial
  subst hplace
  have hstanding := hcounted.directories hfile
  -- what a gate that was open before has become
  have hgates : ∀ present ∈ sharing.registries, ∀ gate ∈ present.gates,
      after.find (base ++ [gate.id ++ ".gate"]) = some (.counter gate.cell) ∧
        after.counter gate.cell = (board.put id content).content gate.id := by
    intro present hpresent gate hgate
    have hfound := h.files present hpresent gate hgate
    rw [Board.content_put]
    by_cases hsame : gate.id = id
    · rw [hsame] at hfound ⊢
      have hcell := hcounted.same _ hfound
      rw [if_pos rfl, hcell]
      exact ⟨hcounted.here, hcounted.content⟩
    · have hother : base ++ [gate.id ++ ".gate"] ≠ base ++ [id ++ ".gate"] := by simpa using hsame
      rw [if_neg hsame, hcounted.others _ hother]
      exact ⟨hfound, (hcounted.contents _ _ hother hfound).trans
        (h.contents present hpresent gate hgate)⟩
  refine ⟨{ h with
    home := hcounted.home.trans h.home
    standing := fun other => (hstanding other).trans (h.standing other)
    paths := ?_
    numbered := hcounted.numbered
    files := fun present hpresent gate hgate => (hgates present hpresent gate hgate).1
    contents := fun present hpresent gate hgate => (hgates present hpresent gate hgate).2 },
    hcounted.here, hcounted.content⟩
  intro other hother name hname
  rw [← h.paths other hother name hname]
  exact hshared.stable (fun place => (h.standing place).mpr) (fun place => (hstanding place).mpr)
    h.home hcounted.home hdirectory hother hslash hname hresolve

/-- Whether it is the first or not, and however it ends, an open follows the board's. -/
theorem Follows.open (hid : '/' ∉ id.toList) (backing : Storage.Backing) :
    (∃ after failure told, registry.openOn backing sharing.storage id = (after, .error failure) ∧
      board.open (refusal initial) backing number id = (told, some (.refused failure)) ∧
        Follows initial directories base { sharing with storage := after } told) ∨
    ∃ after opened gate told,
      registry.openOn backing sharing.storage id = (after, .ok (opened, gate)) ∧
        board.open (refusal initial) backing number id = (told, none) ∧
          (sharing.registries.set number opened)[number]? = some opened ∧ gate ∈ opened.gates ∧
            gate.id = id ∧ Follows initial directories base
              ⟨after, sharing.registries.set number opened, sharing.gates⟩ told := by
  have hset : ∀ opened, (sharing.registries.set number opened)[number]? = some opened := by
    obtain ⟨hlt, -⟩ := List.getElem?_eq_some_iff.mp hregistry
    exact fun opened => List.getElem?_set_self hlt
  cases hfound : registry.find id with
  | some gate =>
      obtain ⟨hgate, hsame⟩ := Registry.find_mem hfound
      obtain ⟨hboard, hfollows⟩ := h.again hregistry hfound backing
      exact .inr ⟨sharing.storage, registry, gate, board, Registry.openOn_found hfound backing,
        hboard, hset registry, hgate, hsame, hfollows⟩
  | none =>
      have hdirectory := h.shared registry (List.mem_of_getElem? hregistry)
      have hclosed : id ∉ registry.gates.map Gate.id := by
        simpa [Registry.find, List.find?_eq_none] using hfound
      have hrefusal := h.refusal_same hdirectory hid backing
      rw [refusal] at hrefusal
      simp only [Registry.openOn, hfound, Board.open, h.registry, hregistry, Option.map_some,
        if_neg hclosed]
      cases hopen : backing.grant
          (sharing.storage.openCounter (Gate.file registry.directory id) none) with
      | error reason =>
          rw [hopen] at hrefusal
          simp only [← hrefusal, Gate.create_refused hopen]
          exact .inl ⟨_, _, _, rfl, rfl, h⟩
      | ok opened =>
          obtain ⟨emptied, cell⟩ := opened
          rw [hopen] at hrefusal
          have hreset : ∀ content, Follows initial directories base
              { sharing with storage := emptied.setCounter cell content } (board.put id content) ∧
              (emptied.setCounter cell content).find (base ++ [id ++ ".gate"]) =
                some (.counter cell) ∧
              (emptied.setCounter cell content).counter cell = content := fun content =>
            h.reset hshared hbase hregistry hid
              (Storage.openCounter_set (Storage.Backing.grant_ok hopen).2 content)
          simp only [← hrefusal, Gate.create_opened hopen]
          cases Gate.spoiled backing (Gate.file registry.directory id) with
          | some left => exact .inl ⟨_, _, _, rfl, rfl, (hreset left.2).1⟩
          | none =>
              obtain ⟨hfollows, hfile, hcontent⟩ := hreset (some Gate.nothingCompleted)
              refine .inr ⟨_, _, _, _, rfl, rfl, hset _, List.mem_cons_self, rfl, ?_⟩
              apply hfollows.add hregistry hfound hfile
              rw [hcontent, Board.content_put, if_pos rfl]

end Open

/-! ### Every act -/

/-- A gate that a registry has is handed out. -/
theorem Follows.hand {number : Nat} {registry : Registry}
    (hregistry : sharing.registries[number]? = some registry) {gate : Gate}
    (hgate : gate ∈ registry.gates) : Follows initial directories base
      { sharing with gates := sharing.gates ++ [(number, gate)] }
      { board with gates := board.gates ++ [(number, gate.id)] } := by
  refine { h with gates := ?_, held := ?_ }
  · rw [h.gates, List.map_append]
    rfl
  · intro handed hhanded
    rcases List.mem_append.mp hhanded with hbefore | hnew
    · exact h.held handed hbefore
    · obtain rfl := List.mem_singleton.mp hnew
      exact ⟨registry, hregistry, hgate⟩

theorem Follows.register {directory : String} (hdirectory : directory ∈ directories) :
    Agrees initial directories base
      ({ sharing with registries := sharing.registries ++ [⟨directory, []⟩] }, .done)
      ({ board with registries := board.registries ++ [(directory, [])] }, .done) := by
  have hcases : ∀ registry ∈ sharing.registries ++ [⟨directory, []⟩],
      registry ∈ sharing.registries ∨ registry = ⟨directory, []⟩ := by
    simp
  refine ⟨rfl, { h with
    shared := ?_, ids := ?_, files := ?_, contents := ?_, registries := ?_, held := ?_ }⟩
  · intro registry hregistry
    rcases hcases registry hregistry with hbefore | rfl
    · exact h.shared registry hbefore
    · exact hdirectory
  · intro registry hregistry
    rcases hcases registry hregistry with hbefore | rfl
    · exact h.ids registry hbefore
    · exact List.nodup_nil
  · intro registry hregistry gate hgate
    rcases hcases registry hregistry with hbefore | rfl
    · exact h.files registry hbefore gate hgate
    · cases hgate
  · intro registry hregistry gate hgate
    rcases hcases registry hregistry with hbefore | rfl
    · exact h.contents registry hbefore gate hgate
    · cases hgate
  · rw [h.registries, List.map_append]
    rfl
  · intro handed hhanded
    obtain ⟨registry, hregistry, hgate⟩ := h.held handed hhanded
    obtain ⟨hlt, -⟩ := List.getElem?_eq_some_iff.mp hregistry
    exact ⟨registry, (List.getElem?_append_left hlt).trans hregistry, hgate⟩

/-- A listing has the ids in order, each with its value. -/
theorem Follows.entries {registry : Registry} (hregistry : registry ∈ sharing.registries) :
    registry.snapshot sharing.storage =
      (registry.gates.map Gate.id).mergeSort.map fun id => (id, board.value id) := by
  have hentries : (registry.gates.map fun gate => (gate.id, gate.read sharing.storage)) =
      (registry.gates.map Gate.id).map fun id => (id, board.value id) := by
    rw [List.map_map]
    apply List.map_congr_left
    intro gate hgate
    rw [h.value hregistry hgate]
    rfl
  rw [Registry.snapshot, hentries, List.map_mergeSort]
  intro one _ other _
  rw [Bool.eq_iff_iff]
  simp only [decide_eq_true_eq, Bool.or_eq_true, Bool.and_eq_true, le_iff_lt_or_eq]
  refine or_congr Iff.rfl ⟨fun hsame => ⟨hsame, ?_⟩, And.left⟩
  exact .inr (congrArg board.value hsame)

theorem Follows.snapshot (number : Nat) : sharing.snapshot number = board.snapshot number := by
  simp only [Sharing.snapshot, Board.snapshot, h.registry]
  cases hregistry : sharing.registries[number]? with
  | none => rfl
  | some registry =>
      simp only [Option.map_some, h.entries (List.mem_of_getElem? hregistry)]

theorem Follows.same (one other : Nat) :
    sharing.same one other = board.same one other := by
  simp only [Sharing.same, Board.same, h.gate]
  cases hone : sharing.gates[one]? with
  | none => rfl
  | some first =>
      cases hother : sharing.gates[other]? with
      | none => rfl
      | some second =>
          obtain ⟨registry, hregistry, hgate⟩ := h.held first (List.mem_of_getElem? hone)
          obtain ⟨another, hanother, hgate'⟩ := h.held second (List.mem_of_getElem? hother)
          have hids := h.ids registry (List.mem_of_getElem? hregistry)
          have hiff : first = second ↔ (first.1, first.2.id) = (second.1, second.2.id) := by
            constructor
            · rintro rfl
              rfl
            · intro hsame
              obtain ⟨hnumber, hid⟩ := Prod.mk.inj hsame
              rw [← hnumber, hregistry] at hanother
              cases hanother
              exact Prod.ext hnumber (List.inj_on_of_nodup_map hids hgate hgate' hid)
          simp only [Option.map_some, hiff]

theorem Follows.publishTo (number : Nat) (index : Int) (backing : Storage.Backing) :
    Agrees initial directories base (sharing.publishTo number index)
      (board.perform (refusal initial) backing (.publishTo number index)) := by
  simp only [Sharing.publishTo, Board.perform, h.gate]
  cases hhanded : sharing.gates[number]? with
  | none => exact ⟨rfl, h⟩
  | some handed =>
      obtain ⟨registry, hregistry, hgate⟩ := h.held handed (List.mem_of_getElem? hhanded)
      simp only [Option.map_some]
      rcases h.publish (List.mem_of_getElem? hregistry) hgate index with
        ⟨fault, hfault, hboard⟩ | ⟨storage, after, hpublished, hboard, hfollows⟩
      · simp only [hfault, hboard]
        exact ⟨rfl, h⟩
      · simp only [hpublished, hboard]
        exact ⟨rfl, hfollows⟩

theorem Follows.readFrom (number : Nat) :
    sharing.readFrom number = board.readFrom number := by
  simp only [Sharing.readFrom, Board.readFrom, h.gate]
  cases hhanded : sharing.gates[number]? with
  | none => rfl
  | some handed =>
      obtain ⟨registry, hregistry, hgate⟩ := h.held handed (List.mem_of_getElem? hhanded)
      simp only [Option.map_some, h.value (List.mem_of_getElem? hregistry) hgate]

theorem Follows.hasCompleted (number index : Nat) :
    sharing.hasCompleted number index = board.hasCompleted number index := by
  simp only [Sharing.hasCompleted, Board.hasCompleted, h.gate]
  cases hhanded : sharing.gates[number]? with
  | none => rfl
  | some handed =>
      obtain ⟨registry, hregistry, hgate⟩ := h.held handed (List.mem_of_getElem? hhanded)
      simp only [Option.map_some, Gate.hasCompleted,
        h.value (List.mem_of_getElem? hregistry) hgate]

/-- An act ends the process where the board says so. -/
theorem Follows.kills (act : Act) : sharing.kills act = board.kills act := by
  have htarget : ∀ (number : Nat) (id : String),
      ((sharing.registries[number]?).bind (Registry.find · id)).any sharing.isEmpty =
        (board.registries[number]?).any fun (entry : String × List String) =>
          entry.2.contains id && board.isEmpty id := by
    intro number id
    rw [h.registry]
    cases hregistry : sharing.registries[number]? with
    | none => rfl
    | some registry =>
        simp only [Option.bind_some, Option.map_some, Option.any_some]
        cases hfound : registry.find id with
        | none =>
            have hclosed : id ∉ registry.gates.map Gate.id := by
              simpa [Registry.find, List.find?_eq_none] using hfound
            simp [List.contains_eq_mem, hclosed]
        | some gate =>
            obtain ⟨hgate, rfl⟩ := Registry.find_mem hfound
            have hopen : gate.id ∈ registry.gates.map Gate.id := List.mem_map_of_mem hgate
            simp only [Option.any_some, h.empty (List.mem_of_getElem? hregistry) hgate,
              List.contains_eq_mem, hopen, decide_true, Bool.true_and]
  have hhanded : ∀ number : Nat,
      ((sharing.gates[number]?).any fun handed => sharing.isEmpty handed.2) =
        (board.gates[number]?).any fun handed => board.isEmpty handed.2 := by
    intro number
    rw [h.gate]
    cases hgate : sharing.gates[number]? with
    | none => rfl
    | some handed =>
        obtain ⟨registry, hregistry, hmember⟩ := h.held handed (List.mem_of_getElem? hgate)
        exact h.empty (List.mem_of_getElem? hregistry) hmember
  cases act with
  | register directory | same one other => rfl
  | «open» number id | publish number id index | read number id => exact htarget number id
  | publishTo number index | readFrom number | hasCompleted number index => exact hhanded number
  | snapshot number =>
      simp only [Sharing.kills, Board.kills, h.registry]
      cases hregistry : sharing.registries[number]? with
      | none => rfl
      | some registry =>
          simp only [Option.map_some, Option.any_some, List.any_map]
          rw [Bool.eq_iff_iff, List.any_eq_true, List.any_eq_true]
          refine exists_congr fun gate => and_congr_right fun hgate => ?_
          rw [h.empty (List.mem_of_getElem? hregistry) hgate]
          rfl

section Opening

variable (hshared : Shared initial directories)
  (hbase : ∀ directory ∈ directories, ∀ name reached, '/' ∉ name.toList → Storage.Plain name →
    initial.resolve (Storage.join directory name) = .ok reached → reached = base ++ [name])
  (backing : Storage.Backing)

include hshared hbase

private theorem Follows.opens (number : Nat) {id : String} (hid : '/' ∉ id.toList) :
    Agrees initial directories base (sharing.open backing number id)
      (board.perform (refusal initial) backing (.open number id)) := by
  simp only [Sharing.open, Board.perform]
  cases hregistry : sharing.registries[number]? with
  | none =>
      simp only [Board.open, h.registry, hregistry, Option.map_none]
      exact ⟨rfl, h⟩
  | some registry =>
      rcases h.open hshared hbase hregistry hid backing with
        ⟨after, failure, told, hrefused, hboard, hfollows⟩ |
        ⟨after, opened, gate, told, hopened, hboard, hset, hgate, rfl, hfollows⟩
      · simp only [hrefused, hboard]
        exact ⟨rfl, hfollows⟩
      · have hvalue := hfollows.value (List.mem_of_getElem? hset) hgate
        simp only [hopened, hboard]
        exact ⟨congrArg Answer.value hvalue, hfollows.hand hset hgate⟩

private theorem Follows.reads (number : Nat) {id : String} (hid : '/' ∉ id.toList) :
    Agrees initial directories base (sharing.read backing number id)
      (board.perform (refusal initial) backing (.read number id)) := by
  simp only [Sharing.read, Board.perform]
  cases hregistry : sharing.registries[number]? with
  | none =>
      simp only [Board.open, h.registry, hregistry, Option.map_none]
      exact ⟨rfl, h⟩
  | some registry =>
      rcases h.open hshared hbase hregistry hid backing with
        ⟨after, failure, told, hrefused, hboard, hfollows⟩ |
        ⟨after, opened, gate, told, hopened, hboard, hset, hgate, rfl, hfollows⟩
      · simp only [Registry.read, hrefused, hboard]
        exact ⟨rfl, hfollows⟩
      · have hvalue := hfollows.value (List.mem_of_getElem? hset) hgate
        simp only [Registry.read, hopened, hboard]
        exact ⟨congrArg Answer.value hvalue, hfollows⟩

/-- A publish that breaks keeps the open that came before it. -/
private theorem Follows.publishes (number : Nat) {id : String} (hid : '/' ∉ id.toList)
    (index : Int) : Agrees initial directories base (sharing.publish backing number id index)
      (board.perform (refusal initial) backing (.publish number id index)) := by
  simp only [Sharing.publish, Board.perform]
  cases hregistry : sharing.registries[number]? with
  | none =>
      simp only [Board.open, h.registry, hregistry, Option.map_none]
      exact ⟨rfl, h⟩
  | some registry =>
      rcases h.open hshared hbase hregistry hid backing with
        ⟨after, failure, told, hrefused, hboard, hfollows⟩ |
        ⟨after, opened, gate, told, hopened, hboard, hset, hgate, rfl, hfollows⟩
      · simp only [Registry.publish, hrefused, hboard, set_same hregistry]
        exact ⟨rfl, hfollows⟩
      · rcases hfollows.publish (List.mem_of_getElem? hset) hgate index with
          ⟨fault, hfault, htold⟩ | ⟨published, last, hpublished, htold, hlast⟩
        · simp only [Registry.publish, hopened, hfault, hboard, htold]
          exact ⟨rfl, hfollows⟩
        · simp only [Registry.publish, hopened, hpublished, hboard, htold]
          exact ⟨rfl, hlast⟩

private theorem Follows.perform (act : Act) (hnamed : act.Named)
    (hdirectory : ∀ directory ∈ act.directory, directory ∈ directories) :
    Agrees initial directories base (sharing.perform backing act)
      (board.perform (refusal initial) backing act) := by
  cases act with
  | register directory => exact h.register (hdirectory directory rfl)
  | «open» number id => exact h.opens hshared hbase backing number (hnamed _ rfl)
  | publish number id index => exact h.publishes hshared hbase backing number (hnamed _ rfl) index
  | read number id => exact h.reads hshared hbase backing number (hnamed _ rfl)
  | snapshot number => exact ⟨h.snapshot number, h⟩
  | publishTo number index => exact h.publishTo number index backing
  | readFrom number => exact ⟨h.readFrom number, h⟩
  | hasCompleted number index => exact ⟨h.hasCompleted number index, h⟩
  | same one other => exact ⟨h.same one other, h⟩

theorem Follows.act (act : Act) (hnamed : act.Named)
    (hdirectory : ∀ directory ∈ act.directory, directory ∈ directories) :
    Agrees initial directories base (sharing.actOn backing act)
      (board.actOn (refusal initial) backing act) := by
  rw [Sharing.actOn, Board.actOn, h.kills]
  split
  · exact ⟨rfl, h⟩
  · exact h.perform hshared hbase backing act hnamed hdirectory

omit backing in
theorem Follows.run (steps : List Step) (hnamed : ∀ step ∈ steps, step.1.Named)
    (hdirectories : ∀ directory ∈ steps.filterMap (·.1.directory), directory ∈ directories) :
    (sharing.runOn steps).2 = (board.runOn (refusal initial) steps).2 ∧
      (sharing.runOn steps).1.Follows initial directories base
        (board.runOn (refusal initial) steps).1 := by
  induction steps generalizing sharing board with
  | nil => exact ⟨rfl, h⟩
  | cons step rest ih =>
      obtain ⟨first, backing⟩ := step
      have hfirst := h.act hshared hbase backing first (hnamed _ List.mem_cons_self)
        fun directory hdirectory =>
          hdirectories directory (List.mem_filterMap.mpr ⟨_, List.mem_cons_self, hdirectory⟩)
      have hrest := ih hfirst.follows (fun step hstep => hnamed step (List.mem_cons_of_mem _ hstep))
        fun directory hdirectory => by
          obtain ⟨step, hstep, hsame⟩ := List.mem_filterMap.mp hdirectory
          exact hdirectories directory
            (List.mem_filterMap.mpr ⟨step, List.mem_cons_of_mem _ hstep, hsame⟩)
      simp only [Sharing.runOn, Board.runOn]
      exact ⟨by rw [hfirst.answer, hrest.1], hrest.2⟩

end Opening

/-! ### What follows for gates and registries -/

/-- A listing has every id that the registry has opened once, in order, with its value. -/
theorem Follows.listing {registry : Registry} (hregistry : registry ∈ sharing.registries) :
    ((registry.snapshot sharing.storage).map Prod.fst).Pairwise (· < ·) ∧
      ∀ id value, (id, value) ∈ registry.snapshot sharing.storage ↔
        (registry.find id).isSome ∧ value = board.value id := by
  have hids := h.ids registry hregistry
  have hperm := List.mergeSort_perm (registry.gates.map Gate.id) fun one other => one ≤ other
  rw [h.entries hregistry]
  constructor
  · rw [List.map_map]
    have hsorted : (List.mergeSort (registry.gates.map Gate.id) fun one other =>
        one ≤ other).Pairwise fun one other => decide (one ≤ other) = true :=
      List.pairwise_mergeSort (by simpa using fun one other third => le_trans)
        (by simpa using le_total) _
    have hdistinct := hperm.nodup_iff.mpr hids
    rw [List.pairwise_map]
    exact (hsorted.and hdistinct).imp fun hboth =>
      lt_of_le_of_ne (of_decide_eq_true hboth.1) hboth.2
  · intro id value
    have hopen : (registry.find id).isSome ↔ id ∈ registry.gates.map Gate.id := by
      simp [Registry.find, List.find?_isSome]
    rw [hopen, ← hperm.mem_iff, List.mem_map]
    constructor
    · rintro ⟨listed, hlisted, hentry⟩
      cases hentry
      exact ⟨hlisted, rfl⟩
    · rintro ⟨hlisted, rfl⟩
      exact ⟨id, hlisted, rfl⟩

end Sharing

/-! ### Opens that are refused -/

/-- An open is refused before anything is changed, or the file of the gate could be opened and is
spoiled. -/
theorem openOn_refused {registry : Registry} {storage after : Storage} {id : String}
    {failure : Failure} {backing : Storage.Backing}
    (h : registry.openOn backing storage id = (after, .error failure)) :
    registry.find id = none ∧
      (after = storage ∨ refusal storage backing registry.directory id = none ∧
      ∃ left, Gate.spoiled backing (Gate.file registry.directory id) = some (failure, left)) := by
  cases hfound : registry.find id with
  | some gate =>
      rw [Registry.openOn_found hfound] at h
      cases h
  | none =>
      refine ⟨rfl, ?_⟩
      rw [refusal]
      simp only [Registry.openOn, hfound] at h
      cases hopen : backing.grant
          (storage.openCounter (Gate.file registry.directory id) none) with
      | error reason =>
          simp only [Gate.create_refused hopen] at h
          cases h
          exact .inl rfl
      | ok opened =>
          simp only [Gate.create_opened hopen] at h
          split at h
          · rename_i hafter
            split at hafter
            · rename_i failure' left hspoiled
              cases hafter
              cases h
              exact .inr ⟨rfl, left, hspoiled⟩
            · cases hafter
          · cases h

/-- A file that can be opened and is spoiled refuses the open. -/
theorem openOn_spoiled {registry : Registry} {storage : Storage} {id : String} {failure : Failure}
    {backing : Storage.Backing} {left : Option Int} (hnew : registry.find id = none)
    (hopens : refusal storage backing registry.directory id = none)
    (hspoiled : Gate.spoiled backing (Gate.file registry.directory id) = some (failure, left)) :
    ∃ after, registry.openOn backing storage id = (after, .error failure) := by
  rw [refusal] at hopens
  cases hopen : backing.grant (storage.openCounter (Gate.file registry.directory id) none) with
  | error reason =>
      rw [hopen] at hopens
      cases hopens
  | ok opened =>
      simp only [Registry.openOn, hnew, Gate.create_opened hopen, hspoiled]
      exact ⟨_, rfl⟩

namespace Sharing

variable {sharing : Sharing} {act : Act} {backing : Storage.Backing} {failure : Failure}

/-- A first open does not end the process. -/
theorem kills_new {number : Nat} {id : String} {registry : Registry}
    (htarget : act.target = some (number, id))
    (hregistry : sharing.registries[number]? = some registry) (hnew : registry.find id = none) :
    sharing.kills act = false := by
  cases act <;> cases htarget <;> simp [kills, hregistry, hnew]

/-- An act that opens a gate is refused when the open is, and only the files may have changed. -/
theorem act_refused {number : Nat} {id : String} {registry : Registry} {after : Storage}
    (htarget : act.target = some (number, id))
    (hregistry : sharing.registries[number]? = some registry)
    (hopen : registry.openOn backing sharing.storage id = (after, .error failure)) :
    sharing.actOn backing act = ({ sharing with storage := after }, .refused failure) := by
  rw [actOn, kills_new htarget hregistry (openOn_refused hopen).1, if_neg Bool.false_ne_true]
  cases act <;> cases htarget
  · simp only [perform, Sharing.open, hregistry, hopen]
  · simp only [perform, Sharing.publish, Registry.publish, hregistry, hopen, set_same hregistry,
      Answer.ofOutcome]
  · simp only [perform, Sharing.read, Registry.read, hregistry, hopen]

/-- An act that opens no gate is not refused. -/
theorem untargeted_act (htarget : act.target = none) :
    (sharing.perform backing act).2 ≠ .refused failure := by
  intro hrefused
  cases act with
  | «open» number id | read number id | publish number id index => cases htarget
  | register directory => cases hrefused
  | publishTo number index =>
      simp only [perform, Sharing.publishTo] at hrefused
      split at hrefused
      · cases hrefused
      · split at hrefused <;> cases hrefused
  | readFrom number | hasCompleted number index | snapshot number | same one other =>
      simp only [perform, Sharing.readFrom, Sharing.hasCompleted, Sharing.snapshot,
        Sharing.same] at hrefused
      split at hrefused <;> cases hrefused

/-- An act is not refused when the gate that it opens is granted. -/
theorem act_granted {number : Nat} {id : String} {registry opened : Registry} {after : Storage}
    {gate : Gate} (htarget : act.target = some (number, id))
    (hregistry : sharing.registries[number]? = some registry)
    (hopen : registry.openOn backing sharing.storage id = (after, .ok (opened, gate))) :
    (sharing.perform backing act).2 ≠ .refused failure := by
  cases act <;> cases htarget
  · simp [perform, Sharing.open, hregistry, hopen]
  · simp only [perform, Sharing.publish, Registry.publish, hregistry, hopen]
    cases gate.publish after _ <;> simp [Answer.ofOutcome]
  · simp [perform, Sharing.read, Registry.read, hregistry, hopen]

/-- Only an act whose gate is refused is refused. -/
theorem refused_act (hrefused : (sharing.actOn backing act).2 = .refused failure) :
    ∃ number id registry after, act.target = some (number, id) ∧
      sharing.registries[number]? = some registry ∧
        registry.openOn backing sharing.storage id = (after, .error failure) := by
  have hperform : (sharing.perform backing act).2 = .refused failure := by
    rw [actOn] at hrefused
    split at hrefused
    · cases hrefused
    · exact hrefused
  cases htarget : act.target with
  | none => exact absurd hperform (untargeted_act htarget)
  | some target =>
      obtain ⟨number, id⟩ := target
      cases hregistry : sharing.registries[number]? with
      | none =>
          cases act <;> cases htarget <;>
            simp [perform, Sharing.open, Sharing.publish, Sharing.read, hregistry] at hperform
      | some registry =>
          rcases hopen : registry.openOn backing sharing.storage id with
            ⟨after, reason | ⟨opened, gate⟩⟩
          · rw [act_refused htarget hregistry hopen] at hrefused
            cases hrefused
            exact ⟨number, id, registry, after, rfl, hregistry, hopen⟩
          · exact absurd hperform (act_granted htarget hregistry hopen)

end Sharing

theorem follows_start {storage : Storage} (h : storage.Numbered) (directories : List String)
    (base : Storage.Place) :
    Sharing.Follows storage directories base ⟨storage, [], []⟩ .blank := by
  constructor
  case home => rfl
  case standing => exact fun _ => Iff.rfl
  case paths => exact fun _ _ _ _ => rfl
  case numbered => exact h
  case registries | gates => rfl
  all_goals
    intro _ hmember
    cases hmember

/-- The system lets a first open of an id down: the file can be opened, which empties it, and it is
refused its size or its mapping. -/
def LetsDown (sharing : Sharing) (act : Act) (backing : Storage.Backing) (id : String)
    (failure : Failure) (left : Option Int) : Prop :=
  ∃ number registry, act.target = some (number, id) ∧
    sharing.registries[number]? = some registry ∧ registry.find id = none ∧
      refusal sharing.storage backing registry.directory id = none ∧
        Gate.spoiled backing (Gate.file registry.directory id) = some (failure, left)

/-- Registries over the files of `storage` after some acts, and the board after the same acts. Every
gate that a registry has opened holds what the board has for its id. A repeated open hands out the
same gate and changes nothing else, whatever the system does with files, as long as the file of the
gate is not empty. A listing has each opened id once, in order. Indices from `signedLimit` on count
as completed at once. An act that is refused an open changes nothing at all unless the system has
let it down after the file was emptied. In that case the id itself is set, for every registry that
has it. Acts on other ids leave an id alone, and between the first opens of an id its value never
decreases. -/
structure Matched (storage : Storage) (sharing : Sharing) (board : Board) : Prop where
  contents : ∀ registry ∈ sharing.registries, ∀ gate ∈ registry.gates,
    sharing.storage.counter gate.cell = board.content gate.id
  values : ∀ registry ∈ sharing.registries, ∀ gate ∈ registry.gates,
    gate.read sharing.storage = board.value gate.id
  lowest : ∀ id, Gate.nothingCompleted ≤ board.value id
  held : ∀ handed ∈ sharing.gates, ∃ registry, sharing.registries[handed.1]? = some registry ∧
    registry.find handed.2.id = some handed.2
  again : ∀ number registry id gate backing, sharing.registries[number]? = some registry →
    registry.find id = some gate → board.isEmpty id = false →
      sharing.actOn backing (.open number id) =
        ({ sharing with gates := sharing.gates ++ [(number, gate)] }, .value (board.value id))
  listing : ∀ registry ∈ sharing.registries,
    ((registry.snapshot sharing.storage).map Prod.fst).Pairwise (· < ·) ∧
      ∀ id value, (id, value) ∈ registry.snapshot sharing.storage ↔
        (registry.find id).isSome ∧ value = board.value id
  completed : ∀ number handed (index : Nat), sharing.gates[number]? = some handed →
    index < wordLimit → sharing.hasCompleted number index =
      .completed (decide ((index : Int) ≤ board.value handed.2.id ∨ signedLimit ≤ index))
  refused : ∀ act backing failure, act.Named →
    (sharing.actOn backing act).2 = .refused failure →
      (sharing.actOn backing act).1.registries = sharing.registries ∧
        (sharing.actOn backing act).1.gates = sharing.gates ∧
          ((sharing.actOn backing act).1 = sharing ∨ ∃ id left,
            LetsDown sharing act backing id failure left ∧
              (board.actOn (refusal storage) backing act).1 = board.put id left)
  letDown : ∀ act backing id failure left, LetsDown sharing act backing id failure left →
    (sharing.actOn backing act).2 = .refused failure
  apart : ∀ act backing id, board.subject act ≠ some id →
    (board.actOn (refusal storage) backing act).1.content id = board.content id
  forward : ∀ steps id, id ∉ board.firsts (refusal storage) steps →
    board.value id ≤ (board.runOn (refusal storage) steps).1.value id

section Matched

variable {initial : Storage} {directories : List String} {base : Storage.Place}
  {sharing : Sharing} {board : Board}
  (h : sharing.Follows initial directories base board)

include h

/-- What the system lets down is set on the board. -/
private theorem Sharing.Follows.letDown {act : Act} (hnamed : act.Named)
    {backing : Storage.Backing} {id : String} {failure : Failure} {left : Option Int}
    (hdown : LetsDown sharing act backing id failure left) :
    (board.actOn (refusal initial) backing act).1 = board.put id left := by
  obtain ⟨number, registry, htarget, hregistry, hnew, hopens, hspoiled⟩ := hdown
  have hdirectory := h.shared registry (List.mem_of_getElem? hregistry)
  rw [h.refusal_same hdirectory (hnamed _ htarget) backing] at hopens
  have hclosed : id ∉ registry.gates.map Gate.id := by
    simpa [Registry.find, List.find?_eq_none] using hnew
  have hopen : board.open (refusal initial) backing number id =
      (board.put id left, some (.refused failure)) := by
    simp only [Board.open, h.registry, hregistry, Option.map_some, if_neg hclosed, hopens,
      hspoiled]
  rw [Board.actOn, ← h.kills, Sharing.kills_new htarget hregistry hnew,
    if_neg Bool.false_ne_true]
  cases act <;> cases htarget <;> simp only [Board.perform, hopen]

private theorem Sharing.Follows.refused {act : Act} (hnamed : act.Named)
    {backing : Storage.Backing} {failure : Failure}
    (hrefused : (sharing.actOn backing act).2 = .refused failure) :
    (sharing.actOn backing act).1.registries = sharing.registries ∧
      (sharing.actOn backing act).1.gates = sharing.gates ∧
        ((sharing.actOn backing act).1 = sharing ∨ ∃ id left,
          LetsDown sharing act backing id failure left ∧
            (board.actOn (refusal initial) backing act).1 = board.put id left) := by
  obtain ⟨number, id, registry, after, htarget, hregistry, hopen⟩ := Sharing.refused_act hrefused
  rw [Sharing.act_refused htarget hregistry hopen]
  refine ⟨rfl, rfl, ?_⟩
  obtain ⟨hnew, hsame | ⟨hopens, left, hspoiled⟩⟩ := openOn_refused hopen
  · left
    rw [hsame]
  · have hdown : LetsDown sharing act backing id failure left :=
      ⟨number, registry, htarget, hregistry, hnew, hopens, hspoiled⟩
    exact .inr ⟨id, left, hdown, h.letDown hnamed hdown⟩

private theorem Sharing.Follows.completed (hlowest : ∀ id, Gate.nothingCompleted ≤ board.value id)
    {number : Nat} {handed : Nat × Gate} (hhanded : sharing.gates[number]? = some handed)
    {index : Nat} (hword : index < wordLimit) : sharing.hasCompleted number index =
      .completed (decide ((index : Int) ≤ board.value handed.2.id ∨ signedLimit ≤ index)) := by
  obtain ⟨registry, hregistry, hgate⟩ := h.held handed (List.mem_of_getElem? hhanded)
  have hvalue := h.value (List.mem_of_getElem? hregistry) hgate
  by_cases hindex : (index : Int) < signedLimit
  · simp only [Sharing.hasCompleted, hhanded, Gate.hasCompleted_signed hindex, hvalue,
      Int.not_le.mpr hindex, or_false]
  · have hbeyond := Int.not_lt.mp hindex
    have hfloor := hlowest handed.2.id
    rw [← hvalue] at hfloor
    simp only [Sharing.hasCompleted, hhanded, Gate.hasCompleted_beyond hbeyond hword hfloor,
      hbeyond, or_true, decide_true]

theorem Sharing.Follows.matched (hlowest : ∀ id, Gate.nothingCompleted ≤ board.value id) :
    Matched initial sharing board := by
  constructor
  case contents => exact h.contents
  case values => exact fun registry hregistry gate => h.value hregistry
  case lowest => exact hlowest
  case held =>
    intro handed hhanded
    obtain ⟨registry, hregistry, hgate⟩ := h.held handed hhanded
    exact ⟨registry, hregistry,
      Registry.find_of_mem (h.ids registry (List.mem_of_getElem? hregistry)) hgate⟩
  case again =>
    intro number registry id gate backing hregistry hfound hfull
    obtain ⟨hgate, rfl⟩ := Registry.find_mem hfound
    have hmember := List.mem_of_getElem? hregistry
    have hkills : sharing.kills (.open number gate.id) = false := by
      simp [Sharing.kills, hregistry, hfound, h.empty hmember hgate, hfull]
    rw [Sharing.actOn, hkills, if_neg Bool.false_ne_true]
    simp only [Sharing.perform, Sharing.open, hregistry, Registry.openOn_found hfound,
      Sharing.set_same hregistry, h.value hmember hgate]
  case listing => exact fun registry => h.listing
  case completed => exact fun number handed index hhanded => h.completed hlowest hhanded
  case refused => exact fun act backing failure hnamed => h.refused hnamed
  case letDown =>
    rintro act backing id failure left
      ⟨number, registry, htarget, hregistry, hnew, hopens, hspoiled⟩
    obtain ⟨after, hopen⟩ := openOn_spoiled hnew hopens hspoiled
    rw [Sharing.act_refused htarget hregistry hopen]
  case apart =>
    intro act backing id hother
    cases board.alters_act (refusal initial) backing act id with
    | kept hkept => exact hkept
    | forward hsubject _ => exact absurd hsubject hother
    | first hsubject _ _ => exact absurd hsubject hother
  case forward => exact fun steps id => Board.value_run_le

end Matched

/-- Whatever is done with registries over one directory, and with the gates they hand out, and
whatever the system refuses them, they answer as the board does. -/
theorem registries_refine_board {storage : Storage} (hnumbered : storage.Numbered)
    {steps : List Step} (hnamed : ∀ step ∈ steps, step.1.Named)
    (hshared : Shared storage (steps.filterMap (·.1.directory))) :
    (Sharing.runOn ⟨storage, [], []⟩ steps).2 = (Board.blank.runOn (refusal storage) steps).2 ∧
      Matched storage (Sharing.runOn ⟨storage, [], []⟩ steps).1
        (Board.blank.runOn (refusal storage) steps).1 := by
  obtain ⟨base, hbase⟩ := hshared.base
  obtain ⟨hanswers, h⟩ := (follows_start hnumbered _ base).run hshared hbase steps hnamed
    fun _ hdirectory => hdirectory
  exact ⟨hanswers, h.matched (Board.lowest_run (fun id => Int.le_refl _) steps)⟩

/-- The system has no memory for a mapping. -/
def unmapped : Storage.Backing :=
  ⟨none, none, .refused (.system "Cannot allocate memory (os error 12)")⟩

/-- Two registries. The first open by the second sets the gate that the first has in use; the value
that is refused by the fresh gate of another id leaves that gate behind, until an open that the
system lets down sets it to `0`. -/
theorem registries_refine_board_two_registries :
    let acts : List Act := [.register "/", .register "/.", .open 0 "a", .publish 0 "a" 5,
      .open 1 "a", .readFrom 0, .publishTo 0 3, .read 1 "a", .publish 1 "a" 2, .publish 1 "b" (-4),
      .open 0 "x\x00", .open 0 "a", .same 0 1, .same 0 2, .hasCompleted 1 3]
    let steps : List Step := acts.map (fun act => (act, .sound)) ++
      [(.open 0 "b", unmapped), (.read 1 "b", .sound)]
    (Sharing.runOn ⟨.empty, [], []⟩ steps).2 =
        [.done, .done, .value (-1), .done, .value (-1), .value (-1), .done, .value 3,
          .broken (.gateMovedBackwards "a"), .broken (.gateMovedBackwards "b"),
          .refused ⟨[.creatingGate "/x\x00.gate"], .storage .zeroInName⟩, .value 3, .same false,
          .same true, .completed true,
          .refused ⟨[.mappingGate "/b.gate"],
            .storage (.system "Cannot allocate memory (os error 12)")⟩, .value 0] ∧
      Matched .empty (Sharing.runOn ⟨.empty, [], []⟩ steps).1
        (Board.blank.runOn (refusal .empty) steps).1 := by
  have hshared : Shared .empty ["/", "/."] := by
    have hroot : ∀ directory ∈ ["/", "/."], Storage.empty.resolve directory = .ok [] := by
      decide
    exact fun one hone other hother => .inr ⟨[], hroot one hone, hroot other hother⟩
  intro acts steps
  obtain ⟨hanswers, hmatched⟩ :=
    @registries_refine_board .empty Storage.empty_numbered steps (by decide) hshared
  exact ⟨hanswers.trans (by decide +kernel), hmatched⟩

/-- An open that fails takes the published value from another registry's gate, and a fresh gate says
that it has completed the record with the largest index. -/
theorem registries_refine_board_let_down :
    let steps : List Step := [(.register "/", .sound), (.register "/.", .sound),
      (.open 0 "a", .sound), (.publishTo 0 5, .sound), (.open 1 "a", unmapped),
      (.readFrom 0, .sound)]
    (Sharing.runOn ⟨.empty, [], []⟩ steps).2 =
        [.done, .done, .value (-1), .done, .refused ⟨[.mappingGate "/./a.gate"],
          .storage (.system "Cannot allocate memory (os error 12)")⟩, .value 0] ∧
      (Sharing.run ⟨.empty, [], []⟩ [.register "/", .open 0 "x",
        .hasCompleted 0 18446744073709551615]).2 = [.done, .value (-1), .completed true] := by
  decide +kernel

end GatedPipeline.Gates
