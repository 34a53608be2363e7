/-!
Times as text. A span is told in the largest unit that leaves a whole part, with as many decimals as
it has. A moment in universal time is told by date and time with a T between them, the parts of a
second in groups of three digits as far as they are needed, and the offset zero.
-/

namespace GatedPipeline.Text

/-! ### Spans -/

/-- The digits of `part` out of `10 ^ places`, without zeros at the end. -/
def decimals (part places : Nat) : String :=
  let digits := (Nat.toDigits 10 part)
  let padded := List.replicate (places - digits.length) '0' ++ digits
  String.ofList (padded.reverse.dropWhile (· == '0')).reverse

/-- A whole part and a fraction of `10 ^ places`, the point only if something follows it. -/
def decimal (whole part places : Nat) : String :=
  if part = 0 then toString whole else toString whole ++ "." ++ decimals part places

def duration (ns : Nat) : String :=
  if 1000000000 ≤ ns then decimal (ns / 1000000000) (ns % 1000000000) 9 ++ "s"
  else if 1000000 ≤ ns then decimal (ns / 1000000) (ns % 1000000) 6 ++ "ms"
  else if 1000 ≤ ns then decimal (ns / 1000) (ns % 1000) 3 ++ "µs"
  else toString ns ++ "ns"

/-! ### Moments -/

/-- A number with zeros in front up to a width. -/
def zeroPadded (width n : Nat) : String :=
  let digits := Nat.toDigits 10 n
  String.ofList (List.replicate (width - digits.length) '0' ++ digits)

/-- Year, month and day of a day counted from the first of January 1970. The count is moved to the
first of March of year 0, so that leap days end their years; an era of four hundred years has
146097 days. -/
def civil (day : Int) : Int × Nat × Nat :=
  let moved := day + 719468
  let era := moved / 146097
  let dayOfEra := (moved % 146097).toNat
  let yearOfEra := (dayOfEra - dayOfEra / 1460 + dayOfEra / 36524 - dayOfEra / 146096) / 365
  let dayOfYear := dayOfEra - (365 * yearOfEra + yearOfEra / 4 - yearOfEra / 100)
  let fromMarch := (5 * dayOfYear + 2) / 153
  let month := if fromMarch < 10 then fromMarch + 3 else fromMarch - 9
  let year : Int := yearOfEra + era * 400
  (if month ≤ 2 then year + 1 else year, month, dayOfYear - (153 * fromMarch + 2) / 5 + 1)

/-- The parts of a second behind the seconds. -/
def secondParts (nanos : Nat) : String :=
  if nanos = 0 then ""
  else if nanos % 1000000 = 0 then "." ++ zeroPadded 3 (nanos / 1000000)
  else if nanos % 1000 = 0 then "." ++ zeroPadded 6 (nanos / 1000)
  else "." ++ zeroPadded 9 nanos

/-- A moment given in seconds from the start of 1970, and nanoseconds. -/
def timestamp (seconds : Int) (nanos : Nat) : String :=
  let (year, month, day) := civil (seconds / 86400)
  let rest := (seconds % 86400).toNat
  zeroPadded 4 year.toNat ++ "-" ++ zeroPadded 2 month ++ "-" ++ zeroPadded 2 day ++ "T" ++
    zeroPadded 2 (rest / 3600) ++ ":" ++ zeroPadded 2 (rest / 60 % 60) ++ ":" ++
    zeroPadded 2 (rest % 60) ++ secondParts nanos ++ "+00:00"

end GatedPipeline.Text
