/-!
Binary floating point numbers taken apart, whole numbers rounded to them, and decimals with a fixed
number of places. A decimal is rounded from the exact value; a tie goes to the even neighbour.
-/

namespace GatedPipeline.Decimal

/-- A floating point number of 64 bits: a finite one is `mantissa * 2 ^ exponent`. -/
inductive Binary where
  | notANumber
  | infinite (negative : Bool)
  | finite (negative : Bool) (mantissa : Nat) (exponent : Int)
  deriving DecidableEq, Repr

namespace Binary

/-- Numbers from here up to twice this are the mantissas of normal numbers. -/
def hidden : Nat := 4503599627370496

/-- The exponent of the smallest numbers. -/
def lowest : Int := -1074

def ofBits (bits : UInt64) : Binary :=
  let n := bits.toNat
  let negative := n / (2048 * hidden) = 1
  let scale := n / hidden % 2048
  let fraction := n % hidden
  if scale = 2047 then if fraction = 0 then .infinite negative else .notANumber
  else if scale = 0 then .finite negative fraction lowest
  else .finite negative (hidden + fraction) (lowest + (scale - 1 : Nat))

def ofFloat (x : Float) : Binary := ofBits x.toBits

end Binary

/-- The nearest floating point number to a whole number. A number of more than 64 bits is first cut
to its leading ones, the last of which says whether anything was cut off. -/
def floatOfNat (n : Nat) : Float :=
  if n < 18446744073709551616 then (UInt64.ofNat n).toFloat
  else
    let extra := n.log2 - 62
    let lead := n / Nat.pow 2 extra
    let cut := if n % Nat.pow 2 extra = 0 then lead else lead / 2 * 2 + 1
    (UInt64.ofNat cut).toFloat.scaleB extra

/-! ### A fixed number of places -/

/-- The nearest whole number to a quotient; of two the even one. -/
def roundDiv (numerator denominator : Nat) : Nat :=
  let quotient := numerator / denominator
  let twice := 2 * (numerator % denominator)
  if denominator < twice ∨ (twice = denominator ∧ quotient % 2 = 1) then quotient + 1 else quotient

/-- `n` units of the last of `places` places. -/
def placed (n places : Nat) : String :=
  let digits := Nat.toDigits 10 n
  let padded := List.replicate (places + 1 - digits.length) '0' ++ digits
  let whole := padded.take (padded.length - places)
  if places = 0 then String.ofList whole
  else String.ofList whole ++ "." ++ String.ofList (padded.drop (padded.length - places))

/-- A number with `places` places. A negative number keeps its sign when it rounds to zero. -/
def fixed (places : Nat) (x : Float) : String :=
  match Binary.ofFloat x with
  | .notANumber => "NaN"
  | .infinite negative => if negative then "-inf" else "inf"
  | .finite negative mantissa exponent =>
      let numerator := mantissa * Nat.pow 2 exponent.toNat * Nat.pow 10 places
      let units := roundDiv numerator (Nat.pow 2 (-exponent).toNat)
      (if negative then "-" else "") ++ placed units places

end GatedPipeline.Decimal
