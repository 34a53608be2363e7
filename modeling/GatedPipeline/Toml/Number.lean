import GatedPipeline.Limits
import GatedPipeline.Toml.Scan

/-!
Numbers of a settings file. Whole numbers are signed words; digits may be divided by single
underscores. A number with a point or a power of ten must not be too large for a binary floating
point number of 64 bits, where only the positive side is watched.
-/

namespace GatedPipeline.Toml.Number

open Scan

def isDigit (c : Char) : Bool := '0' ≤ c && c ≤ '9'

def digitsRest (isDigit : Char → Bool) : Nat → Scan (List Char)
  | 0 => pure []
  | fuel + 1 => do
      let some c ← peek | return []
      if isDigit c then
        expect c
        return c :: (← digitsRest isDigit fuel)
      else if c = '_' then
        expect '_'
        let some d ← peek | refuse
        if isDigit d then
          expect d
          return d :: (← digitsRest isDigit fuel)
        else refuse
      else return []

def digits (isDigit : Char → Bool) : Scan (List Char) := do
  let some c ← peek | refuse
  if isDigit c then
    expect c
    return c :: (← fun rest => digitsRest isDigit (rest.length + 1) rest)
  else refuse

def valueOf (base : Nat) (digits : List Char) : Nat :=
  digits.foldl (fun value c => value * base +
    (if isDigit c then c.toNat - '0'.toNat
      else if 'a' ≤ c ∧ c ≤ 'f' then c.toNat - 'a'.toNat + 10
      else c.toNat - 'A'.toNat + 10)) 0

/-- A sign, if there is one: whether it is a minus. -/
def sign : Scan Bool := do
  if ← eat '-' then return true
  let _ ← eat '+'
  return false

/-- Digits of a decimal whole number: no zero in front of others. -/
def wholeDigits : Scan (List Char) := do
  if ← eat '0' then return ['0'] else digits isDigit

/-- A whole number that fits a signed word. -/
def fitting (negative : Bool) (base : Nat) (digits : List Char) : Scan Value := do
  let value := valueOf base digits
  let signed : Int := if negative then -(value : Int) else value
  if -signedLimit ≤ signed ∧ signed < signedLimit then return .integer signed
  else throw (.outOfRange (String.ofList digits))

def isHex (c : Char) : Bool := isDigit c || ('a' ≤ c && c ≤ 'f') || ('A' ≤ c && c ≤ 'F')

def isOctal (c : Char) : Bool := '0' ≤ c && c ≤ '7'

def isBinary (c : Char) : Bool := c = '0' || c = '1'

/-- A whole number; a base other than ten takes no sign. -/
def integer : Scan Value := fun rest =>
  match rest with
  | '0' :: 'x' :: rest => (digits isHex >>= fitting false 16) rest
  | '0' :: 'o' :: rest => (digits isOctal >>= fitting false 8) rest
  | '0' :: 'b' :: rest => (digits isBinary >>= fitting false 2) rest
  | rest => (do
      let negative ← sign
      fitting negative 10 (← wholeDigits)) rest

/-- The least positive number that is rounded to infinity. -/
def infinityFrom : Nat := Nat.pow 2 1024 - Nat.pow 2 970

/-- Whether `mantissa * 10 ^ power` is rounded to infinity. Only close to the bound is it worked
out. -/
def overflows (mantissa : Nat) (power : Int) : Bool :=
  let length := ((Nat.toDigits 10 mantissa).length : Int) + power
  if mantissa = 0 ∨ length < 300 then false
  else if 320 < length then true
  else infinityFrom * Nat.pow 10 (-power).toNat ≤ mantissa * Nat.pow 10 power.toNat

def fraction : Scan (List Char) := do
  if ← eat '.' then digits isDigit else return []

def power : Scan (Option Int) := do
  let marked ← either (do expect 'e'; return true) (eat 'E')
  if marked then
    let negative ← sign
    let value := valueOf 10 (← digits isDigit)
    return some (if negative then -(value : Int) else value)
  else return none

def decimal : Scan Value := do
  let negative ← sign
  let whole ← wholeDigits
  let fraction ← fraction
  let power ← power
  if fraction.isEmpty && power.isNone then refuse
  let mantissa := valueOf 10 (whole ++ fraction)
  let scale := power.getD 0
  let text := (if negative then "-" else "") ++ String.ofList whole ++ "." ++
    String.ofList fraction ++ "e" ++ toString scale
  if !negative && overflows mantissa (scale - fraction.length) then throw (.outOfRange text)
  return .float text

def special : Scan Value := do
  let negative ← sign
  let text := (if negative then "-" else "")
  either
    (do expect 'i'; expect 'n'; expect 'f'; return .float (text ++ "inf"))
    (do expect 'n'; expect 'a'; expect 'n'; return .float (text ++ "nan"))

def float : Scan Value := either decimal special

end GatedPipeline.Toml.Number
