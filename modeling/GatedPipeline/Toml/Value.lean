/-!
Settings files: the values they hold, and what can be wrong with their text.
-/

namespace GatedPipeline.Toml

/-- A value of a settings file. Numbers with a point and dates are kept as they were written. -/
inductive Value where
  | string (text : String)
  | integer (value : Int)
  | float (text : String)
  | boolean (value : Bool)
  | moment (text : String)
  | array (items : List Value)
  | table (entries : List (String × Value))

/-- Why a text is no settings file. An unexpected character can also be the end of the text. A
number can be too large, a date or a time can be one that does not exist, and so can a character
with a given number. Keys can come twice or below something that is no table, and brackets or keys
can be nested deeper than is read. -/
inductive Complaint where
  | unexpected (found : Option Char)
  | outOfRange (text : String)
  | noSuchMoment
  | noSuchCharacter
  | duplicate (key : String)
  | notATable (key : String)
  | tooDeep
  deriving DecidableEq, Repr

def Complaint.text : Complaint → String
  | .unexpected (some c) => "unexpected character " ++ c.toString
  | .unexpected none => "unexpected end of text"
  | .outOfRange text => "number out of range: " ++ text
  | .noSuchMoment => "no such date or time"
  | .noSuchCharacter => "no such character"
  | .duplicate key => "duplicate key " ++ key
  | .notATable key => "key " ++ key ++ " is not a table"
  | .tooDeep => "nested too deeply"

end GatedPipeline.Toml
