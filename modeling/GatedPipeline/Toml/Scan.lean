import GatedPipeline.Toml.Value

/-!
Scanning: a scanner takes characters off the front of the text that remains, or complains.
-/

namespace GatedPipeline.Toml

abbrev Scan (α : Type) := StateT (List Char) (Except Complaint) α

namespace Scan

/-- The next character, which stays. -/
def peek : Scan (Option Char) := fun rest => .ok (rest.head?, rest)

def refuse {α : Type} : Scan α := fun rest => .error (.unexpected rest.head?)

/-- Takes this character. -/
def expect (c : Char) : Scan Unit
  | d :: rest => if c = d then .ok ((), rest) else .error (.unexpected (some d))
  | [] => .error (.unexpected none)

/-- Takes this character if it comes next. -/
def eat (c : Char) : Scan Bool
  | d :: rest => if c = d then .ok (true, rest) else .ok (false, d :: rest)
  | [] => .ok (false, [])

/-- Takes characters as long as they belong to a class. -/
def takeWhile (p : Char → Bool) : Scan (List Char) := fun rest => .ok (rest.span p)

/-- The first scanner's answer, or the second's from the same place. -/
def either {α : Type} (one other : Scan α) : Scan α := fun rest =>
  match one rest with
  | .ok answer => .ok answer
  | .error _ => other rest

/-- The scanner's answer, or nothing and the text as it was. -/
def perhaps {α : Type} (scan : Scan α) : Scan (Option α) :=
  either (some <$> scan) (pure none)

/-! ### Blanks, line ends and comments -/

def isBlank (c : Char) : Bool := c = ' ' || c = '\t'

/-- Characters of a comment: all but control characters, of which tabs are allowed. -/
def isCommentChar (c : Char) : Bool := c = '\t' || (' ' ≤ c && c ≠ '\x7f')

def blanks : Scan Unit := do let _ ← takeWhile isBlank

/-- Takes a line end if one comes next. A carriage return is part of one before a line feed. -/
def newline : Scan Bool
  | '\n' :: rest => .ok (true, rest)
  | '\r' :: '\n' :: rest => .ok (true, rest)
  | rest => .ok (false, rest)

def comment : Scan Bool := do
  if ← eat '#' then
    let _ ← takeWhile isCommentChar
    return true
  else return false

/-- The end of a line: blanks, perhaps a comment, and a line end or the end of the text. -/
def lineEnd : Scan Unit := do
  blanks
  let _ ← comment
  if ← newline then return ()
  match ← peek with
  | none => return ()
  | some _ => refuse

/-- Blanks, line ends and comments, as many as there are; each takes a character at least. -/
def gapsFor : Nat → Scan Unit
  | 0 => pure ()
  | fuel + 1 => do
      blanks
      if ← newline then gapsFor fuel
      else if ← comment then gapsFor fuel
      else return ()

def gaps : Scan Unit := fun rest => gapsFor (rest.length + 1) rest

end Scan

end GatedPipeline.Toml
