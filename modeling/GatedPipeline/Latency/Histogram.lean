import GatedPipeline.Decimal.Binary

/-!
Latencies with about three digits. A sample is counted in a bin whose width grows with the sample,
and percentiles, the worst sample and the mean are read off the bins.

This stands in for a high dynamic range histogram over 1 ns to a minute with three significant
digits, which the program takes from a library. Two things are assumed of that library. Every call
that records a sample counts exactly one, a sample beyond the range being counted as the longest
latency. A value shares its bin with the values that have the same leading eleven bits, and a
percentile is the top of the first bin with which so many samples are reached. The theory uses only
the samples that are passed on and their number, and the bins matter for what is printed.
-/

namespace GatedPipeline.Latency

/-- The latency that every sample beyond the range is counted as: a minute. -/
def longest : Nat := 60000000000

/-- Samples from here on are beyond the range. -/
def beyond : Nat := 68719476736

/-- The values counted together: from `low` on, `width` of them. -/
structure Bin where
  low : Nat
  width : Nat
  deriving DecidableEq, Repr

namespace Bin

/-- The bin of a value: its leading eleven bits. -/
def of (value : Nat) : Bin :=
  let bits := if value = 0 then 0 else value.log2 + 1
  let width := Nat.pow 2 (bits - 11)
  ⟨value / width * width, width⟩

def high (bin : Bin) : Nat := bin.low + bin.width - 1

def middle (bin : Bin) : Nat := bin.low + bin.width / 2

end Bin

/-- The samples recorded, the latest first. -/
structure Histogram where
  samples : List Nat
  deriving DecidableEq, Repr

namespace Histogram

def empty : Histogram := ⟨[]⟩

def record (histogram : Histogram) (sample : Nat) : Histogram := ⟨sample :: histogram.samples⟩

def total (histogram : Histogram) : Nat := histogram.samples.length

/-- The value a sample is counted as. -/
def counted (sample : Nat) : Nat := if sample < beyond then sample else longest

/-- Runs of equal neighbours with their lengths. -/
def runs : List Bin → List (Bin × Nat)
  | [] => []
  | bin :: rest =>
      match runs rest with
      | (next, count) :: others =>
          if bin = next then (next, count + 1) :: others else (bin, 1) :: (next, count) :: others
      | [] => [(bin, 1)]

/-- The bins that hold samples, in ascending order, with the number each holds. -/
def bins (histogram : Histogram) : List (Bin × Nat) :=
  runs ((histogram.samples.map counted).mergeSort.map Bin.of)

def worst (histogram : Histogram) : Nat :=
  match histogram.bins.getLast? with
  | some (bin, _) => bin.high
  | none => 0

/-- The top of the first bin with which `target` samples are reached. -/
def reach (target : Nat) : Nat → List (Bin × Nat) → Nat
  | _, [] => 0
  | passed, (bin, count) :: rest =>
      if target ≤ passed + count then bin.high else reach target (passed + count) rest

/-- The value that `percent` of the samples do not exceed. -/
def percentile (histogram : Histogram) (percent : Float) : Nat :=
  let share := percent / 100.0 * Decimal.floatOfNat histogram.total
  reach (max 1 share.ceil.toUInt64.toNat) 0 histogram.bins

/-- The mean of the middles of the bins. -/
def mean (histogram : Histogram) : Float :=
  let total := Decimal.floatOfNat histogram.total
  histogram.bins.foldl
    (fun sum entry =>
      sum + Decimal.floatOfNat entry.1.middle * Decimal.floatOfNat entry.2 / total)
    0.0

end Histogram

def percents : List Float := [50.0, 90.0, 99.0, 99.9, 99.99, 99.999, 99.9999]

end GatedPipeline.Latency
