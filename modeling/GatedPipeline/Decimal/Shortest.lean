import GatedPipeline.Decimal.Binary

/-!
The shortest decimal that reads back as a given floating point number, and of those the nearest.
All comparisons are made on whole numbers.
-/

namespace GatedPipeline.Decimal

/-- A positive decimal: its digits without zeros at the end, and the power of ten of the first one.
-/
structure Digits where
  digits : List Char
  lead : Int
  deriving DecidableEq, Repr

namespace Digits

/-- The decimal `n * 10 ^ power`. -/
def ofScaled (n : Nat) (power : Int) : Digits :=
  let all := Nat.toDigits 10 n
  ⟨(all.reverse.dropWhile (· == '0')).reverse, power + all.length - 1⟩

end Digits

/-- The numbers that round to `mantissa * 2 ^ exponent`, in quarters of its last place. The number
itself is `4 * mantissa` of them. The ends belong to it if it is closed. -/
structure Interval where
  low : Nat
  high : Nat
  closed : Bool

/-- A mantissa at the lower edge of its exponent has closer neighbours below. -/
def interval (mantissa : Nat) (exponent : Int) : Interval :=
  let below := if mantissa = Binary.hidden ∧ Binary.lowest < exponent then 1 else 2
  ⟨4 * mantissa - below, 4 * mantissa + 2, mantissa % 2 = 0⟩

/-- Powers of ten up to which digits are looked for; no number of 64 bits needs more. -/
def farthest : Nat := 400

/-- The power of ten of the first digit of `numerator / denominator`. -/
def leadingPower (numerator denominator : Nat) : Int :=
  if denominator ≤ numerator then ((Nat.toDigits 10 (numerator / denominator)).length : Int) - 1
  else
    let places := (List.range farthest).find? fun k => denominator ≤ numerator * Nat.pow 10 (k + 1)
    Int.negSucc (places.getD 0)

/-- Looks for a decimal with `count` digits in the interval, then for longer ones. -/
def search (mantissa : Nat) (exponent : Int) (lead : Int) : (fuel count : Nat) → Digits
  | 0, _ => ⟨[], 0⟩
  | fuel + 1, count =>
      let power := lead - count + 1
      let unit := exponent - 2
      let scale := Nat.pow 2 unit.toNat * Nat.pow 10 (-power).toNat
      let step := Nat.pow 2 (-unit).toNat * Nat.pow 10 power.toNat
      let value := 4 * mantissa * scale
      let range := interval mantissa exponent
      let inside (n : Nat) : Bool :=
        if range.closed then decide (range.low * scale ≤ n * step ∧ n * step ≤ range.high * scale)
        else decide (range.low * scale < n * step ∧ n * step < range.high * scale)
      let down := value / step
      let nearer := if 2 * (value % step) ≤ step then down else down + 1
      let farther := if 2 * (value % step) ≤ step then down + 1 else down
      if 0 < nearer ∧ inside nearer then .ofScaled nearer power
      else if 0 < farther ∧ inside farther then .ofScaled farther power
      else search mantissa exponent lead fuel (count + 1)

/-- The shortest digits of `mantissa * 2 ^ exponent`; seventeen are always enough. -/
def shortest (mantissa : Nat) (exponent : Int) : Digits :=
  let lead := leadingPower (mantissa * Nat.pow 2 exponent.toNat) (Nat.pow 2 (-exponent).toNat)
  search mantissa exponent lead 17 1

/-- How a finite number is written: which powers of ten of the first digit are written out in
full, how a whole number ends, and what marks a power that is not. -/
structure Style where
  leastFull : Int
  greatestFull : Int
  wholeEnding : String
  positivePower : String
  deriving DecidableEq, Repr

namespace Style

/-- Every number in full, whole numbers without a point. -/
def full : Style := ⟨-400, 400, "", ""⟩

/-- Numbers in reports: in full from a hundred thousandth up to ten thousand million million, with
a point in every number, and otherwise with the power of ten and its sign. -/
def report : Style := ⟨-5, 15, ".0", "+"⟩

def write (style : Style) (number : Digits) : String :=
  let digits := number.digits
  if style.leastFull ≤ number.lead ∧ number.lead ≤ style.greatestFull then
    if number.lead < 0 then
      "0." ++ String.ofList (List.replicate ((-number.lead).toNat - 1) '0' ++ digits)
    else
      let width := number.lead.toNat + 1
      let whole := digits.take width ++ List.replicate (width - digits.length) '0'
      let rest := digits.drop width
      String.ofList whole ++
        (if rest.isEmpty then style.wholeEnding else "." ++ String.ofList rest)
  else
    let mantissa := match digits with
      | [] => ""
      | [digit] => digit.toString
      | digit :: rest => digit.toString ++ "." ++ String.ofList rest
    mantissa ++ "e" ++ (if 0 ≤ number.lead then style.positivePower else "") ++
      toString number.lead

/-- Writes any number; the texts of the numbers that are not finite are those of plain text. -/
def text (style : Style) (x : Float) : String :=
  match Binary.ofFloat x with
  | .notANumber => "NaN"
  | .infinite negative => if negative then "-inf" else "inf"
  | .finite negative mantissa exponent =>
      (if negative then "-" else "") ++
        (if mantissa = 0 then "0" ++ style.wholeEnding
        else style.write (shortest mantissa exponent))

end Style

end GatedPipeline.Decimal
