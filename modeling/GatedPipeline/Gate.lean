import GatedPipeline.Storage
import GatedPipeline.Word

/-!
Gates: named counters that say how far a stage has come. A gate at `v` says that its stage has
completed every record up to index `v`; a fresh gate is at `-1`. Each gate's counter lives in a
file of its own, and a registry gives the same gate for the same id as long as it lives.
-/

namespace GatedPipeline

/-- A gate opened by some registry: its id and the counter in its file. -/
structure Gate where
  id : String
  cell : Nat
  deriving DecidableEq, Repr

namespace Gate

/-- The value of a gate whose stage has completed no record. -/
def nothingCompleted : Int := -1

def ofStage (stage : Nat) : String := "stage-" ++ toString stage

def file (directory id : String) : String := Storage.join directory (id ++ ".gate")

/-- Makes the gate of an id, or resets the one that is there. The file is opened and emptied, given
its size and mapped, in this order, and only then the gate is set to `nothingCompleted`. When the
system refuses one of the last two steps, whoever has the gate open finds it as the step before
left it. A file that has been given its size holds zeros. -/
def create (storage : Storage) (directory id : String) (backing : Storage.Backing := .sound) :
    Storage × Except Failure Gate :=
  let path := file directory id
  match backing.grant (storage.openCounter path none) with
  | .error refusal => (storage, .error ⟨[.creatingGate path], .storage refusal⟩)
  | .ok (emptied, cell) =>
      match backing.sizing with
      | some refusal => (emptied, .error ⟨[.sizingGate path], .storage refusal⟩)
      | none =>
          let sized := emptied.setCell cell 0
          match backing.mapping with
          | .refused refusal => (sized, .error ⟨[.mappingGate path], .storage refusal⟩)
          | .null => (sized, .error (.of .gateAtNull))
          | .mapped => (sized.setCell cell nothingCompleted, .ok ⟨id, cell⟩)

def read (storage : Storage) (gate : Gate) : Int := storage.cell gate.cell

/-- Publishes `index` as the last completed record. A gate never moves backwards. -/
def publish (storage : Storage) (gate : Gate) (index : Int) : Except Fault Storage :=
  if gate.read storage ≤ index then .ok (storage.setCell gate.cell index)
  else .error (.gateMovedBackwards gate.id)

/-- Whether the stage behind the gate has completed record `index`. -/
def hasCompleted (storage : Storage) (gate : Gate) (index : Nat) : Bool :=
  Word.signed (UInt64.ofNat index) ≤ gate.read storage

def describe (storage : Storage) (gate : Gate) : String :=
  "Gate \x7b id: " ++ Text.quote gate.id ++ ", value: " ++ toString (gate.read storage) ++ " \x7d"

end Gate

/-- The gates opened so far in one directory, latest first. -/
structure Registry where
  directory : String
  gates : List Gate
  deriving DecidableEq, Repr

namespace Registry

def find (registry : Registry) (id : String) : Option Gate :=
  registry.gates.find? (·.id = id)

/-- The gate of an id. The first open makes its file, or resets the one that is there. An open that
is refused adds no gate, but may have changed files. -/
def openOn (backing : Storage.Backing) (storage : Storage) (registry : Registry) (id : String) :
    Storage × Except Failure (Registry × Gate) :=
  match registry.find id with
  | some gate => (storage, .ok (registry, gate))
  | none =>
      match Gate.create storage registry.directory id backing with
      | (after, .error failure) => (after, .error failure)
      | (after, .ok gate) => (after, .ok ({ registry with gates := gate :: registry.gates }, gate))

/-- The gate of an id, on a system that refuses nothing of its own. An open that is refused there
leaves all files as they were. -/
def «open» (storage : Storage) (registry : Registry) (id : String) :
    Except Failure (Storage × Registry × Gate) :=
  match openOn .sound storage registry id with
  | (_, .error failure) => .error failure
  | (after, .ok (opened, gate)) => .ok (after, opened, gate)

/-- Publishes to the gate of an id. What the open has made stays when the value is refused. -/
def publish (storage : Storage) (registry : Registry) (id : String) (index : Int)
    (backing : Storage.Backing := .sound) : Storage × Registry × Except Problem Unit :=
  match registry.openOn backing storage id with
  | (after, .error failure) => (after, registry, .error (.failed failure))
  | (after, .ok (opened, gate)) =>
      match gate.publish after index with
      | .error fault => (after, opened, .error (.broken fault))
      | .ok published => (published, opened, .ok ())

def read (storage : Storage) (registry : Registry) (id : String)
    (backing : Storage.Backing := .sound) : Storage × Except Failure (Registry × Int) :=
  match registry.openOn backing storage id with
  | (after, .error failure) => (after, .error failure)
  | (after, .ok (opened, gate)) => (after, .ok (opened, gate.read after))

/-- Every gate opened so far with its value, in the order of ids. -/
def snapshot (storage : Storage) (registry : Registry) : List (String × Int) :=
  (registry.gates.map fun gate => (gate.id, gate.read storage)).mergeSort
    fun one other => one.1 < other.1 || (one.1 = other.1 && one.2 ≤ other.2)

end Registry

end GatedPipeline
