import GatedPipeline.Limits

/-!
The files a run sees: a tree of directories and files, each at its place, and the counters that
gate files hold. A counter outlives its file for whoever still has it open, so counters are kept
beside the tree and a gate file only names its counter.

Where a path leads and what stands there decides most operations. Where a file is opened to be
mapped, three steps are up to the system as well: it may refuse to open the file, to give it its
size, and to map it. What the system does there is handed to the operations that depend on it.
-/

namespace GatedPipeline

namespace Storage

/-- Why an operation on files is refused. A file that stands where the path needs a directory makes
it `notDirectory`, and a directory where the operation needs a file `isDirectory`. A size is out of
range when it does not fit a file offset. Any other reason has the system's own words: too many open
files, no room for a file of that size, no memory for a mapping. -/
inductive Refusal where
  | missing
  | denied
  | taken
  | notDirectory
  | isDirectory
  | nameTooLong
  | zeroInName
  | sizeOutOfRange
  | notText
  | system (text : String)
  deriving DecidableEq, Repr

def Refusal.text : Refusal → String
  | .missing => "No such file or directory (os error 2)"
  | .denied => "Permission denied (os error 13)"
  | .taken => "File exists (os error 17)"
  | .notDirectory => "Not a directory (os error 20)"
  | .isDirectory => "Is a directory (os error 21)"
  | .nameTooLong => "File name too long (os error 36)"
  | .zeroInName => "file name contained an unexpected NUL byte"
  | .sizeOutOfRange => "number too large to fit in target type"
  | .notText => "stream did not contain valid UTF-8"
  | .system text => text

/-- How the system answers when an open file is to be mapped, which may be with the null address. -/
inductive Mapping where
  | mapped
  | refused (refusal : Refusal)
  | null
  deriving DecidableEq, Repr

/-- What the system does with a file that is opened, then given its size and then mapped. The first
two steps have a reason if they are refused, although the path of the file is good. A step matters
only if those before it succeed. -/
structure Backing where
  opening : Option Refusal
  sizing : Option Refusal
  mapping : Mapping
  deriving DecidableEq, Repr

def Backing.sound : Backing := ⟨none, none, .mapped⟩

/-- What comes of opening a file, which the system may refuse whatever stands at its path. -/
def Backing.grant {α : Type} (backing : Backing) (outcome : Except Refusal α) :
    Except Refusal α :=
  match backing.opening with
  | some refusal => .error refusal
  | none => outcome

/-- The names from the root down to a directory or a file. -/
abbrev Place := List String

/-- What stands at a place. The words of a log file belong to the log that opened it, and a gate
file has the number of its counter. -/
inductive Node where
  | directory
  | file (bytes : ByteArray)
  | log (bytes : Nat)
  | counter (cell : Nat)

end Storage

/-- The files by their places, and the values of the counters by their numbers. A counter whose file
is empty has no value. Relative paths start at `home`. -/
structure Storage where
  nodes : List (Storage.Place × Storage.Node)
  cells : Array (Option Int)
  home : Storage.Place

namespace Storage

def empty : Storage := ⟨[], #[], []⟩

/-- What stands at a place. The root is always a directory. -/
def find (storage : Storage) (place : Place) : Option Node :=
  if place = [] then some .directory else storage.nodes.lookup place

def put (storage : Storage) (place : Place) (node : Node) : Storage :=
  { storage with nodes := (place, node) :: storage.nodes.filter (·.1 ≠ place) }

/-- Forgets a place and everything below it. -/
def remove (storage : Storage) (place : Place) : Storage :=
  { storage with nodes := storage.nodes.filter fun entry => !place.isPrefixOf entry.1 }

def names (storage : Storage) (place : Place) : List String :=
  (storage.nodes.filterMap fun entry =>
    if entry.1.dropLast = place then entry.1.getLast? else none).mergeSort

def counter (storage : Storage) (number : Nat) : Option Int := storage.cells.getD number none

/-- The value of a counter. The file of a counter that has none must not be read: see
`Gates.Sharing.kills`. -/
def cell (storage : Storage) (number : Nat) : Int := (storage.counter number).getD 0

def setCounter (storage : Storage) (number : Nat) (content : Option Int) : Storage :=
  match storage with
  | ⟨nodes, cells, home⟩ => ⟨nodes, cells.setIfInBounds number content, home⟩

def setCell (storage : Storage) (number : Nat) (value : Int) : Storage :=
  storage.setCounter number (some value)

/-! ### Paths -/

/-- Longest name in a directory, in bytes. -/
def longestName : Nat := 255

/-- Longest path, in bytes. -/
def longestPath : Nat := 4095

def isAbsolute (path : String) : Bool := path.toList.head? = some '/'

/-- Whether a path ends in a slash, and so can only lead to a directory. -/
def endsOpen (path : String) : Bool := path.toList.getLast? = some '/'

/-- A name below a directory. A name that starts at the root stands for itself. -/
def join (directory name : String) : String :=
  if isAbsolute name || directory.isEmpty then name
  else if endsOpen directory then directory ++ name
  else directory ++ "/" ++ name

/-- What stands between the slashes of a path. -/
def splitNames : List Char → List (List Char)
  | [] => [[]]
  | c :: rest =>
      if c = '/' then [] :: splitNames rest
      else
        match splitNames rest with
        | [] => [[c]]
        | name :: names => (c :: name) :: names

def namesOf (path : String) : List String := (splitNames path.toList).map String.ofList

/-- Follows names down from a place. Only directories are walked through. -/
def walk (storage : Storage) (place : Place) : List String → Except Refusal Place
  | [] => .ok place
  | name :: rest =>
      match storage.find place with
      | none => .error .missing
      | some .directory =>
          if name.isEmpty || name = "." then walk storage place rest
          else if name = ".." then walk storage place.dropLast rest
          else if longestName < name.utf8ByteSize then .error .nameTooLong
          else walk storage (place ++ [name]) rest
      | some _ => .error .notDirectory

/-- The place a path leads to; whether something stands there is another question. -/
def resolve (storage : Storage) (path : String) : Except Refusal Place :=
  if path.toList.contains '\x00' then .error .zeroInName
  else if path.isEmpty then .error .missing
  else if longestPath < path.utf8ByteSize then .error .nameTooLong
  else storage.walk (if isAbsolute path then [] else storage.home) (namesOf path)

def holdsDirectory (storage : Storage) (place : Place) : Bool :=
  match storage.find place with
  | some .directory => true
  | _ => false

def isDirectory (storage : Storage) (path : String) : Bool :=
  match storage.resolve path with
  | .error _ => false
  | .ok place => storage.holdsDirectory place

def isThere (storage : Storage) (path : String) : Bool :=
  match storage.resolve path with
  | .error _ => false
  | .ok place => (storage.find place).isSome

/-! ### Operations on paths -/

def createNew (storage : Storage) (path : String) (node : Node) : Except Refusal Storage := do
  let place ← storage.resolve path
  if (storage.find place).isSome then throw .taken
  return storage.put place node

/-- Gives a log file its size, unless the system refuses it. A file offset is a signed word. -/
def resize (storage : Storage) (path : String) (bytes : Nat) (refused : Option Refusal) :
    Except Refusal Storage := do
  if signedLimit ≤ bytes then throw .sizeOutOfRange
  if let some refusal := refused then throw refusal
  return storage.put (← storage.resolve path) (.log bytes)

def read (storage : Storage) (path : String) : Except Refusal ByteArray := do
  match storage.find (← storage.resolve path) with
  | none => throw .missing
  | some .directory => throw .isDirectory
  | some (.file bytes) => return bytes
  | some _ => throw .notText

/-- Opens the counter at a path, making it if there is none, and sets what it holds. Whoever has
the same file open finds that too. -/
def openCounter (storage : Storage) (path : String) (content : Option Int) :
    Except Refusal (Storage × Nat) := do
  let place ← storage.resolve path
  match storage.find place with
  | some .directory => throw .isDirectory
  | some (.counter cell) => return (storage.setCounter cell content, cell)
  | _ =>
      let cell := storage.cells.size
      return ({ storage with cells := storage.cells.push content }.put place (.counter cell), cell)

def makeDirectory (storage : Storage) (path : String) : Except Refusal Storage := do
  let place ← storage.resolve path
  if (storage.find place).isSome then throw .taken
  return storage.put place .directory

/-- The names of a path that say where it leads. -/
def pathNames (path : String) : List String :=
  (namesOf path).filter fun name => !name.isEmpty && name ≠ "."

/-- The path through some of a path's names, relative if the path is. -/
def pathOf (path : String) (names : List String) : String :=
  (if isAbsolute path then "/" else "") ++ "/".intercalate names

def write (storage : Storage) (path : String) (bytes : ByteArray) : Except Refusal Storage := do
  let place ← storage.resolve
    (if endsOpen path then pathOf path ((namesOf path).filter (!·.isEmpty)) else path)
  if endsOpen path || storage.holdsDirectory place then throw .isDirectory
  return storage.put place (.file bytes)

/-- Makes a directory of a path's names and those above it that are missing. The list holds the
names from the last one up. Directories already made stay when a later one is refused. -/
def makeAll (path : String) : List String → Storage → Storage × Except Refusal Unit
  | [], storage =>
      if isAbsolute path || storage.isDirectory "." then (storage, .ok ())
      else (storage, .error .missing)
  | last :: above, storage =>
      let here := pathOf path (last :: above).reverse
      match storage.makeDirectory here with
      | .ok made => (made, .ok ())
      | .error .missing =>
          match makeAll path above storage with
          | (parents, .error refusal) => (parents, .error refusal)
          | (parents, .ok ()) =>
              match parents.makeDirectory here with
              | .ok made => (made, .ok ())
              | .error refusal =>
                  if parents.isDirectory here then (parents, .ok ()) else (parents, .error refusal)
      | .error refusal =>
          if storage.isDirectory here then (storage, .ok ()) else (storage, .error refusal)

/-- Makes a directory and those above it that are missing; one that is there is fine. -/
def makeDirectories (storage : Storage) (path : String) : Storage × Except Refusal Unit :=
  if path.toList.contains '\x00' then (storage, .error .zeroInName)
  else makeAll path (pathNames path).reverse storage

/-- A directory name below `parent` that is not taken: `stem` with the first free number. It stands
in for the random name that a library for temporary directories chooses. Of that library it is
assumed that it goes on to another name when one is taken. -/
def freeName (storage : Storage) (parent : Place) (stem : String) : String :=
  let candidates := (List.range (storage.nodes.length + 1)).map fun n => stem ++ toString n
  (candidates.find? fun name => (storage.find (parent ++ [name])).isNone).getD stem

/-- Makes a fresh directory below `parent` and answers its path. All that is used of the name is
that it is not empty and that nothing stands there. -/
def makeFresh (storage : Storage) (parent stem : String) : Except Refusal (Storage × String) := do
  let place ← storage.resolve (join parent ".")
  let path := join parent (storage.freeName place stem)
  return (← storage.makeDirectory path, path)

def removeDirectory (storage : Storage) (path : String) : Except Refusal Storage := do
  let place ← storage.resolve path
  match storage.find place with
  | none => throw .missing
  | some .directory => return storage.remove place
  | some _ => throw .notDirectory

end Storage

end GatedPipeline
