import GatedPipeline.Toml.Number

/-!
Dates and times of a settings file, by the calendar. A second number sixty is a leap second.
-/

namespace GatedPipeline.Toml.Moment

open Scan

def number (count : Nat) : Scan Nat := fun rest =>
  let digits := rest.take count
  if digits.length = count ∧ digits.all Number.isDigit then
    .ok (Number.valueOf 10 digits, rest.drop count)
  else .error (.unexpected rest.head?)

def within (low high : Nat) : Scan Nat := do
  let value ← number 2
  if low ≤ value ∧ value ≤ high then return value else throw .noSuchMoment

def isLeap (year : Nat) : Bool := (year % 4 = 0 && year % 100 ≠ 0) || year % 400 = 0

def daysOf (year month : Nat) : Nat :=
  if month = 2 then (if isLeap year then 29 else 28)
  else if month = 4 ∨ month = 6 ∨ month = 9 ∨ month = 11 then 30
  else 31

def date : Scan Unit := do
  let year ← number 4
  expect '-'
  let month ← within 1 12
  expect '-'
  let _ ← within 1 (daysOf year month)

def part : Scan Unit := do
  expect '.'
  match ← takeWhile Number.isDigit with
  | [] => refuse
  | _ => return ()

def time : Scan Unit := do
  let _ ← within 0 23
  expect ':'
  let _ ← within 0 59
  expect ':'
  let _ ← within 0 60
  let _ ← perhaps part

def offset : Scan Unit := do
  if ← eat 'Z' then return ()
  if ← eat 'z' then return ()
  if !(← eat '+') then expect '-'
  let _ ← within 0 23
  expect ':'
  let _ ← within 0 59

def timeOfDay : Scan Unit := do
  if !(← eat 'T') then
    if !(← eat 't') then expect ' '
  time
  let _ ← perhaps offset

def moment : Scan Value := fun before =>
  let scan : Scan Unit := either (do date; let _ ← perhaps timeOfDay) time
  match scan before with
  | .error complaint => .error complaint
  | .ok ((), rest) =>
      .ok (.moment (String.ofList (before.take (before.length - rest.length))), rest)

end GatedPipeline.Toml.Moment
