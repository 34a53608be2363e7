import GatedPipeline.Record

/-!
What one run is told: how many stages and records, at which rate, where its files go, and how the
workers are held back or placed. A run is only made of a configuration that `validate` accepts.
-/

namespace GatedPipeline.Run

/-- What a run is to do. Periods and delays are in nanoseconds and the throughput is in records per
second. A run without a throughput goes as fast as it can. The producer reports its progress each
time a multiple of `progressEvery` records are still to come, and never if this is zero. Delays and
cores are those of the workers in order: delays from the first stage on, and cores with the
producer's own in front. -/
structure Config where
  stages : Nat
  count : Nat
  throughput : Option Nat
  outputDirectory : String
  progressEvery : Nat
  pretouchPeriod : Nat
  pretouchPatience : Nat
  delays : List Nat
  cores : List Nat
  deriving DecidableEq, Repr

namespace Config

/-- An unpaced run without delays or cores. -/
def plain (stages count : Nat) (outputDirectory : String) : Config :=
  ⟨stages, count, none, outputDirectory, 0, 500000, 1000000000, [], []⟩

/-- The list with `value` at `index`, filled up with zeros as far as needed. -/
def setDelay (index value : Nat) (delays : List Nat) : List Nat :=
  (delays ++ List.replicate (index + 1 - delays.length) 0).set index value

/-- The delay of one stage set; there is no stage 0. -/
def withDelay (config : Config) (stage delay : Nat) : Config :=
  if stage = 0 then config
  else { config with delays := setDelay (stage - 1) delay config.delays }

/-- Refuses what cannot be run, with the first reason found. -/
def validate (config : Config) : Except Failure Unit := do
  if config.stages = 0 then throw (.of .stageCountZero)
  if maxStages < config.stages then throw (.of (.stageCountTooLarge config.stages))
  if config.count = 0 then throw (.of .recordCountZero)
  if config.throughput = some 0 then throw (.of .throughputZero)
  match config.throughput with
  | some rate => if maxThroughput < rate then throw (.of (.throughputTooHigh rate))
  | none => pure ()
  if config.stages < config.delays.length then
    throw (.of (.tooManyDelays config.delays.length config.stages))
  if config.stages + 1 < config.cores.length then
    throw (.of (.tooManyCores config.cores.length (config.stages + 1)))
  match config.cores.find? (maxCore ≤ ·) with
  | some core => throw (.of (.coreOutOfRange core))
  | none => pure ()

/-- Nanoseconds from one record to the next; zero if the run is unpaced. -/
def interval (config : Config) : Except Fault Nat :=
  match config.throughput with
  | none => .ok 0
  | some rate => Checked.div second rate

def delayOf (config : Config) (stage : Nat) : Option Nat :=
  if stage = 0 then none else config.delays[stage - 1]?.filter (· ≠ 0)

/-- The core of a worker, if it is given one: worker 0 is the producer. -/
def coreOf (config : Config) (worker : Nat) : Option Nat := config.cores[worker]?

end Config

end GatedPipeline.Run
