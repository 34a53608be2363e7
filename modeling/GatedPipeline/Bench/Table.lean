import GatedPipeline.Decimal.Binary

/-!
The tables that a benchmark prints: a label, and a value in microseconds with three places. Colour
is for terminals, and never for a user who asked for none.
-/

namespace GatedPipeline.Bench

inductive Style where
  | heading
  | muted
  | warning
  deriving DecidableEq, Repr

def Style.attribute : Style → String
  | .heading => "1"
  | .muted => "2"
  | .warning => "33"

def colored (terminal noColor : Bool) : Bool := terminal && !noColor

def paint (color : Bool) (style : Style) (text : String) : String :=
  if color then "\x1b[" ++ style.attribute ++ "m" ++ text ++ "\x1b[0m" else text

def labelWidth : Nat := 9

def valueWidth : Nat := 12

def padRight (width : Nat) (text : String) : String :=
  text ++ String.ofList (List.replicate (width - text.length) ' ')

def padLeft (width : Nat) (text : String) : String :=
  String.ofList (List.replicate (width - text.length) ' ') ++ text

/-- One line of a table. The label is padded before it is painted, so colour moves no column. -/
def row (color : Bool) (style : Option Style) (label : String) (value : Float) : String :=
  let padded := padRight labelWidth label
  let painted := match style with
    | some style => paint color style padded
    | none => padded
  "  " ++ painted ++ "  " ++ padLeft valueWidth (Decimal.fixed 3 value)

end GatedPipeline.Bench
