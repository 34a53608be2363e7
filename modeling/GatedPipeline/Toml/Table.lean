import GatedPipeline.Toml.Value

/-!
Tables while they are built. A table is either written out, by a header or between braces, or
implied by the key of something below it; an implied table may still get a header, unless it was
implied by a dotted key. Nothing is defined twice.
-/

namespace GatedPipeline.Toml

/-- A part of a document while it is read. A table is `implicit` if it is only implied and `dotted`
if a dotted key implied it. The tables of a list come with the latest first. -/
inductive Node where
  | value (value : Value)
  | table (implicit dotted : Bool) (entries : List (String × Node))
  | tables (items : List (List (String × Node)))

structure Table where
  implicit : Bool
  dotted : Bool
  entries : List (String × Node)

mutual

def Node.finish : Node → Value
  | .value value => value
  | .table _ _ entries => .table (finishEntries entries)
  | .tables items => .array (finishTables items).reverse

def finishEntries : List (String × Node) → List (String × Value)
  | [] => []
  | (key, node) :: rest => (key, node.finish) :: finishEntries rest

def finishTables : List (List (String × Node)) → List Value
  | [] => []
  | entries :: rest => .table (finishEntries entries) :: finishTables rest

end

namespace Table

/-- A table that is written out and still empty. -/
def fresh : Table := ⟨false, false, []⟩

def find (table : Table) (key : String) : Option Node := table.entries.lookup key

def put (table : Table) (key : String) (node : Node) : Table :=
  { table with entries := (key, node) :: table.entries.filter (·.1 ≠ key) }

def remove (table : Table) (key : String) : Table :=
  { table with entries := table.entries.filter (·.1 ≠ key) }

/-- Changes the table at the end of a path, and makes the tables on the way that are missing. The
last table of a list stands for the list. A dotted key leads through implied tables only. -/
def update (dotted : Bool) (change : Table → Except Complaint Table) :
    List String → Table → Except Complaint Table
  | [], table => change table
  | key :: path, table =>
      match table.find key with
      | none => do
          let child ← update dotted change path ⟨true, dotted, []⟩
          return table.put key (.table child.implicit child.dotted child.entries)
      | some (.value _) => throw (.notATable key)
      | some (.tables []) => throw (.notATable key)
      | some (.tables (latest :: others)) => do
          let child ← update dotted change path ⟨false, false, latest⟩
          return table.put key (.tables (child.entries :: others))
      | some (.table isImplicit isDotted entries) =>
          if dotted && !isImplicit then throw (.duplicate key)
          else do
            let child ← update dotted change path ⟨isImplicit, isDotted, entries⟩
            return table.put key (.table child.implicit child.dotted child.entries)

/-- Adds a value under a key that may be dotted. A dotted key adds to tables that dotted keys made,
a plain key to the others. -/
def insert (path : List String) (key : String) (value : Value) (table : Table) :
    Except Complaint Table :=
  update true
    (fun table =>
      if table.dotted = path.isEmpty then throw (.duplicate key)
      else if (table.find key).isSome then throw (.duplicate key)
      else return table.put key (.value value))
    path table

end Table

/-- A document while it is read: all finished tables, and the one whose entries come now. That table
goes to `path`, which is empty for the document itself, and to the end of a list of tables if it is
`listed`. -/
structure Draft where
  root : Table
  current : Table
  path : List String
  listed : Bool

namespace Draft

def start : Draft := ⟨.fresh, .fresh, [], false⟩

def settle (draft : Draft) : Except Complaint Table :=
  match draft.path.getLast? with
  | none => .ok draft.current
  | some key =>
      let place := fun (parent : Table) =>
        if draft.listed then
          match parent.find key with
          | some (.tables items) =>
              Except.ok (parent.put key (.tables (draft.current.entries :: items)))
          | none => .ok (parent.put key (.tables [draft.current.entries]))
          | some _ => .error (.duplicate key)
        else
          .ok (parent.put key
            (.table draft.current.implicit draft.current.dotted draft.current.entries))
      draft.root.update false place draft.path.dropLast

/-- The table at the end of a path, which `update` has just been there to make. -/
def at? (table : Table) : List String → Option Table
  | [] => some table
  | key :: path =>
      match table.find key with
      | some (.table isImplicit isDotted entries) => at? ⟨isImplicit, isDotted, entries⟩ path
      | some (.tables (latest :: _)) => at? ⟨false, false, latest⟩ path
      | _ => none

/-- Begins the table of a header. A table that was implied by headers below it goes on. -/
def header (path : List String) (draft : Draft) : Except Complaint Draft := do
  let root ← draft.settle
  match path.getLast? with
  | none => throw (.unexpected none)
  | some key =>
      let parents := path.dropLast
      let root ← root.update false pure parents
      let parent := (at? root parents).getD .fresh
      match parent.find key with
      | none => return ⟨root, .fresh, path, false⟩
      | some (.table true false entries) =>
          let root ← root.update false (fun table => pure (table.remove key)) parents
          return ⟨root, ⟨false, false, entries⟩, path, false⟩
      | some _ => throw (.duplicate key)

/-- Begins another table of a list of tables. -/
def listHeader (path : List String) (draft : Draft) : Except Complaint Draft := do
  let root ← draft.settle
  match path.getLast? with
  | none => throw (.unexpected none)
  | some key =>
      let parents := path.dropLast
      let root ← root.update false pure parents
      match ((at? root parents).getD .fresh).find key with
      | none | some (.tables _) => return ⟨root, .fresh, path, true⟩
      | some _ => throw (.duplicate key)

def entry (path : List String) (key : String) (value : Value) (draft : Draft) :
    Except Complaint Draft := do
  return { draft with current := ← draft.current.insert path key value }

end Draft

end GatedPipeline.Toml
