import GatedPipeline.Toml.Scan

/-!
Strings of a settings file. They stand between quotes or between apostrophes; only the first kind
knows escapes. Three marks in a row open a string of several lines, in which one or two marks may
stand, also right before the end.
-/

namespace GatedPipeline.Toml.Text

open Scan

def hexValue (digits : List Char) : Option Nat :=
  digits.foldl (fun value c => do
    let value ← value
    if '0' ≤ c ∧ c ≤ '9' then some (value * 16 + (c.toNat - '0'.toNat))
    else if 'a' ≤ c ∧ c ≤ 'f' then some (value * 16 + (c.toNat - 'a'.toNat + 10))
    else if 'A' ≤ c ∧ c ≤ 'F' then some (value * 16 + (c.toNat - 'A'.toNat + 10))
    else none) (some 0)

/-- The character with a number written in so many hexadecimal digits. -/
def numbered (count : Nat) : Scan Char := fun rest =>
  let digits := rest.take count
  match hexValue digits with
  | none => .error (.unexpected rest.head?)
  | some value =>
      if digits.length < count then .error (.unexpected none)
      else if value.isValidChar then .ok (Char.ofNat value, rest.drop count)
      else .error .noSuchCharacter

/-- The character that follows a backslash, or stands for what follows. -/
def escape : Scan Char := fun rest =>
  match rest with
  | 'b' :: rest => .ok ('\x08', rest)
  | 't' :: rest => .ok ('\t', rest)
  | 'n' :: rest => .ok ('\n', rest)
  | 'f' :: rest => .ok ('\x0c', rest)
  | 'r' :: rest => .ok ('\r', rest)
  | '"' :: rest => .ok ('"', rest)
  | '\\' :: rest => .ok ('\\', rest)
  | 'u' :: rest => numbered 4 rest
  | 'U' :: rest => numbered 8 rest
  | rest => .error (.unexpected rest.head?)

/-- Characters that may stand in a string of one line, its own marks apart. -/
def isPlain (c : Char) : Bool := isCommentChar c

/-- The rest of a quoted string of one line. -/
def quotedRest : Nat → List Char → Scan String
  | 0, _ => refuse
  | fuel + 1, taken => do
      match ← peek with
      | some '"' => expect '"'; return String.ofList taken.reverse
      | some '\\' =>
          expect '\\'
          let c ← escape
          quotedRest fuel (c :: taken)
      | some c =>
          if isPlain c then expect c; quotedRest fuel (c :: taken) else refuse
      | none => refuse

def quoted : Scan String := do
  expect '"'
  fun rest => quotedRest (rest.length + 1) [] rest

def literal : Scan String := do
  expect '\''
  let text ← takeWhile fun c => isPlain c && c ≠ '\''
  expect '\''
  return String.ofList text

def eatText (text : List Char) : Scan Bool := fun rest =>
  if text.isPrefixOf rest then .ok (true, rest.drop text.length) else .ok (false, rest)

/-- A backslash at the end of a line joins what follows the next blanks and line ends. -/
def lineJoin : Scan Unit := do
  expect '\\'
  blanks
  if ← newline then
    let rec skip : Nat → Scan Unit
      | 0 => pure ()
      | fuel + 1 => do
          blanks
          if ← newline then skip fuel else return ()
    fun rest => skip (rest.length + 1) rest
  else refuse

/-- The rest of a string of several lines between three marks each. -/
def linesRest (mark : Char) (escapes : Bool) : Nat → List Char → Scan String
  | 0, _ => refuse
  | fuel + 1, taken => do
      if ← eatText [mark, mark, mark] then
        let taken := if ← eat mark then mark :: taken else taken
        let taken := if ← eat mark then mark :: taken else taken
        return String.ofList taken.reverse
      else if ← newline then linesRest mark escapes fuel ('\n' :: taken)
      else
        match ← peek with
        | none => refuse
        | some c =>
            if escapes && c = '\\' then
              if (← perhaps lineJoin).isSome then linesRest mark escapes fuel taken
              else
                expect '\\'
                let c ← escape
                linesRest mark escapes fuel (c :: taken)
            else if isPlain c then expect c; linesRest mark escapes fuel (c :: taken)
            else refuse

/-- A string of several lines; a line end right behind the opening marks does not belong to it. -/
def lines (mark : Char) (escapes : Bool) : Scan String := do
  let _ ← newline
  fun rest => linesRest mark escapes (rest.length + 1) [] rest

def string : Scan String := do
  if ← eatText ['"', '"', '"'] then lines '"' true
  else if ← eatText ['\'', '\'', '\''] then lines '\'' false
  else if (← peek) = some '"' then quoted
  else literal

end GatedPipeline.Toml.Text
