import GatedPipeline.Failure

/-!
Machine words and the checked arithmetic on counts, sizes and positions. A word is read as a
number below `2 ^ 64`, or as a signed number in two's complement.
-/

namespace GatedPipeline

abbrev Word := UInt64

namespace Word

def signed (word : Word) : Int := word.toInt64.toInt

/-- The word that holds a signed number, modulo `2 ^ 64`. -/
def ofSigned (value : Int) : Word := (Int64.ofInt value).toUInt64

theorem signed_ofSigned (value : Int) (low : -signedLimit ≤ value) (high : value < signedLimit) :
    signed (ofSigned value) = value := by
  simpa [signed, ofSigned] using Int64.toInt_ofInt_of_le low high

end Word

namespace Checked

/-! Arithmetic on numbers below `2 ^ 64`, with a fault where the result leaves them. -/

def add (a b : Nat) : Except Fault Nat :=
  if a + b < wordLimit then .ok (a + b) else .error .addOverflow

def sub (a b : Nat) : Except Fault Nat :=
  if b ≤ a then .ok (a - b) else .error .subtractOverflow

def mul (a b : Nat) : Except Fault Nat :=
  if a * b < wordLimit then .ok (a * b) else .error .multiplyOverflow

def div (a b : Nat) : Except Fault Nat :=
  if b = 0 then .error .divideByZero else .ok (a / b)

/-- The difference of two signed words; it must itself fit a signed word. -/
def signedSub (a b : Int) : Except Fault Int :=
  if -signedLimit ≤ a - b ∧ a - b < signedLimit then .ok (a - b) else .error .subtractOverflow

/-- The least multiple of `step` that is not below `n`. -/
def roundUp (n step : Nat) : Except Fault Nat := mul ((n + step - 1) / step) step

end Checked

/-- An operation that may only break, among those that may also fail. -/
def orBroken {α : Type} (result : Except Fault α) : Except Problem α :=
  result.mapError Problem.broken

end GatedPipeline
