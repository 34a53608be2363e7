/-!
Documents in JSON, written over several lines with two blanks for each level.
-/

namespace GatedPipeline

/-- A document. Its numbers are kept as they are written. -/
inductive Json where
  | null
  | number (text : String)
  | string (text : String)
  | list (items : List Json)
  | record (fields : List (String × Json))

namespace Json

def nat (n : Nat) : Json := .number (toString n)

def int (n : Int) : Json := .number (toString n)

def hexDigit (n : Nat) : Char := (Nat.toDigits 16 n).getD 0 '0'

def escape (c : Char) : String :=
  match c with
  | '"' => "\\\""
  | '\\' => "\\\\"
  | '\x08' => "\\b"
  | '\t' => "\\t"
  | '\n' => "\\n"
  | '\x0c' => "\\f"
  | '\r' => "\\r"
  | c =>
      if c.toNat < 32 then
        "\\u00" ++ (hexDigit (c.toNat / 16)).toString ++ (hexDigit (c.toNat % 16)).toString
      else c.toString

def quote (s : String) : String := "\"" ++ String.join (s.toList.map escape) ++ "\""

/-- The lines of items between two marks; a comma ends each but the last. -/
def block (opening closing : String) (items : List (List String)) : List String :=
  let indented := items.map fun lines => lines.map ("  " ++ ·)
  let rec commas : List (List String) → List String
    | [] => []
    | [last] => last
    | item :: rest => item.dropLast ++ (item.getLast?.map (· ++ ",")).toList ++ commas rest
  match indented with
  | [] => [opening ++ closing]
  | _ => [opening] ++ commas indented ++ [closing]

/-- Lines with `text` in front of the first. -/
def labelled (text : String) : List String → List String
  | [] => [text]
  | first :: rest => (text ++ first) :: rest

mutual

def lines : Json → List String
  | .null => ["null"]
  | .number text => [text]
  | .string text => [quote text]
  | .list items => block "[" "]" (linesOfItems items)
  | .record fields => block "\x7b" "\x7d" (linesOfFields fields)

def linesOfItems : List Json → List (List String)
  | [] => []
  | item :: rest => item.lines :: linesOfItems rest

def linesOfFields : List (String × Json) → List (List String)
  | [] => []
  | (key, value) :: rest => labelled (quote key ++ ": ") value.lines :: linesOfFields rest

end

def text (json : Json) : String := "\n".intercalate json.lines

end Json

end GatedPipeline
