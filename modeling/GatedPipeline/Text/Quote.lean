import GatedPipeline.Text.Invisible

/-!
Text between double quotes, for descriptions of values: the usual short escapes, and the number
of every character that does not show by itself.
-/

namespace GatedPipeline.Text

/-- Hexadecimal digits in lower case, without leading zeros. -/
def hex (n : Nat) : String := String.ofList (Nat.toDigits 16 n)

def quoteChar (c : Char) : String :=
  match c with
  | '\x00' => "\\0"
  | '\t' => "\\t"
  | '\n' => "\\n"
  | '\r' => "\\r"
  | '"' => "\\\""
  | '\\' => "\\\\"
  | c => if Invisible.isInvisible c then "\\u\x7b" ++ hex c.toNat ++ "\x7d" else c.toString

def quote (s : String) : String := "\"" ++ String.join (s.toList.map quoteChar) ++ "\""

def brackets (items : List String) : String := "[" ++ ", ".intercalate items ++ "]"

end GatedPipeline.Text
