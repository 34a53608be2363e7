import GatedPipeline.Toml.Moment
import GatedPipeline.Toml.Table
import GatedPipeline.Toml.Text

/-!
Reading a whole settings file.
-/

namespace GatedPipeline.Toml

open Scan

/-- Keys with this many parts or more, and brackets nested this deep or deeper, are not read. -/
def depthLimit : Nat := 80

def isBareKeyChar (c : Char) : Bool :=
  ('A' ≤ c && c ≤ 'Z') || ('a' ≤ c && c ≤ 'z') || ('0' ≤ c && c ≤ '9') || c = '_' || c = '-'

/-- One part of a key: bare, quoted, or between apostrophes. -/
def keyPart : Scan String := do
  match ← peek with
  | some '"' => Text.quoted
  | some '\'' => Text.literal
  | _ =>
      match ← takeWhile isBareKeyChar with
      | [] => refuse
      | chars => return String.ofList chars

/-- The parts of a key, divided by points; a point takes a character. -/
def keyParts : Nat → Scan (List String)
  | 0 => refuse
  | fuel + 1 => do
      blanks
      let part ← keyPart
      blanks
      if ← eat '.' then return part :: (← keyParts fuel) else return [part]

/-- A key: what stands in front of the last point, and the part behind it. -/
def key : Scan (List String × String) := do
  let parts ← fun rest => keyParts (rest.length + 1) rest
  if depthLimit ≤ parts.length then throw .tooDeep
  match parts.getLast? with
  | some last => return (parts.dropLast, last)
  | none => refuse

def boolean : Scan Value := do
  if ← Text.eatText ['t', 'r', 'u', 'e'] then return .boolean true
  else if ← Text.eatText ['f', 'a', 'l', 's', 'e'] then return .boolean false
  else refuse

def scalar : Scan Value := do
  match ← peek with
  | some '"' | some '\'' => return .string (← Text.string)
  | some 't' | some 'f' => boolean
  | _ => either Moment.moment (either Number.float Number.integer)

def items (item : Scan Value) : Nat → Scan (List Value)
  | 0 => refuse
  | fuel + 1 => do
      gaps
      if ← eat ']' then return []
      let value ← item
      gaps
      if ← eat ',' then return value :: (← items item fuel)
      expect ']'
      return [value]

def entries (item : Scan Value) : Nat → Table → Scan Table
  | 0, _ => refuse
  | fuel + 1, table => do
      let (path, last) ← key
      expect '='
      blanks
      let value ← item
      blanks
      let table ← (table.insert path last value : Except Complaint Table)
      if ← eat ',' then entries item fuel table
      else
        expect '\x7d'
        return table

/-- A value, in which brackets may be nested so deep. -/
def value : Nat → Scan Value
  | 0 => do
      match ← peek with
      | some '[' | some '\x7b' => throw .tooDeep
      | _ => scalar
  | room + 1 => do
      match ← peek with
      | some '[' =>
          expect '['
          return .array (← fun rest => items (value room) (rest.length + 1) rest)
      | some '\x7b' =>
          expect '\x7b'
          blanks
          if ← eat '\x7d' then return .table []
          let table ← fun rest => entries (value room) (rest.length + 1) .fresh rest
          return .table (finishEntries table.entries)
      | _ => scalar

def assignment (draft : Draft) : Scan Draft := do
  let (path, last) ← key
  expect '='
  blanks
  let value ← value (depthLimit - 1)
  lineEnd
  (draft.entry path last value : Except Complaint Draft)

/-- A line with the header of a table, or of a table in a list of tables. -/
def headerLine (draft : Draft) : Scan Draft := do
  expect '['
  let listed ← eat '['
  let (path, last) ← key
  expect ']'
  if listed then expect ']'
  lineEnd
  if listed then (draft.listHeader (path ++ [last]) : Except Complaint Draft)
  else (draft.header (path ++ [last]) : Except Complaint Draft)

/-- The lines of a document; each takes a character at least. -/
def statements : Nat → Draft → Scan Draft
  | 0, _ => refuse
  | fuel + 1, draft => do
      blanks
      match ← peek with
      | none => return draft
      | some '#' => lineEnd; statements fuel draft
      | some '[' => statements fuel (← headerLine draft)
      | some c =>
          if c = '\n' || c = '\r' then
            if ← newline then statements fuel draft else refuse
          else statements fuel (← assignment draft)

/-- Takes the mark that some editors put in front of a text. -/
def byteOrderMark : Scan Unit := do let _ ← eat '\ufeff'

def document : Scan (List (String × Value)) := do
  byteOrderMark
  let draft ← fun rest => statements (rest.length + 1) .start rest
  let root ← (draft.settle : Except Complaint Table)
  return finishEntries root.entries

def read (text : String) : Except Complaint (List (String × Value)) :=
  document.run' text.toList

end GatedPipeline.Toml
