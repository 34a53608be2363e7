import GatedPipeline.Decimal.Binary
import GatedPipeline.Pause
import GatedPipeline.Run.Context

/-!
The producer. It appends the records of a run one by one, each when it is due, with the number of
records still to come and the time of production. What it does is cut into turns; a turn reads or
writes the shared state at most once, so that any interleaving with other workers is a sequence of
turns. The clock reading a turn may need is given to it.
-/

namespace GatedPipeline.Worker

def seconds (ns : Nat) : Float :=
  Decimal.floatOfNat (ns / second) + Decimal.floatOfNat (ns % second) / 1000000000.0

namespace Producer

/-- The records that a producer wrote and the nanoseconds it took. -/
structure Stats where
  written : Nat
  elapsed : Nat
  deriving DecidableEq, Repr

def Stats.rate (stats : Stats) : Float :=
  if 0.0 < seconds stats.elapsed then Decimal.floatOfNat stats.written / seconds stats.elapsed
  else 0.0

def Stats.line (stats : Stats) : String :=
  "Producer wrote " ++ toString stats.written ++ " messages in " ++
    Decimal.fixed 3 (seconds stats.elapsed) ++ " seconds"

/-- How far a producer has come. It starts at the clock reading before the first record, `interval`
is the time between two records in nanoseconds and zero if it is unpaced, and `index` is that of the
record at hand. -/
structure Progress where
  appender : Appender
  start : Nat
  interval : Nat
  index : Nat
  deriving DecidableEq, Repr

/-- What a producer does next. When it is `ready` it looks whether the record at hand is due or the
run was asked to give up, and it has `missed` when the record was not due. -/
inductive Phase where
  | begin
  | readStart (appender : Appender) (interval : Nat)
  | ready (progress : Progress)
  | missed (progress : Progress)
  | write (progress : Progress)
  | over (outcome : Except Problem Stats)

end Producer

structure Producer where
  pause : Pause
  phase : Producer.Phase

namespace Producer

def start (pause : Pause) : Producer := ⟨pause, .begin⟩

/-- When the record at hand is due. -/
def due (progress : Progress) : Except Fault Nat := do
  Checked.add progress.start (← Checked.mul progress.index progress.interval)

/-- The number of records after one, as it is stored: a signed word. -/
def toCome (count index : Nat) : Int := Word.signed (UInt64.ofNat (count - 1 - index))

def fill (count index now : Nat) : List Edit :=
  [.remaining (toCome count index), .stamp 0 (UInt64.ofNat now)]

/-- The progress note after a record, if one is due. -/
def progressNote (every : Nat) (remaining : Int) : Option Event :=
  if 0 < every ∧ 0 < remaining ∧ remaining.toNat % every = 0 then
    some (.producerProgress remaining.toNat)
  else none

def finish (context : Run.Context) (pause : Pause) (outcome : Except Problem Stats) :
    Run.Context × Producer :=
  (context.releaseAppender, ⟨pause, .over outcome⟩)

def turn (now : Nat) (context : Run.Context) (producer : Producer) : Run.Context × Producer :=
  let pause := producer.pause
  match producer.phase with
  | .begin =>
      match context.config.interval with
      | .error fault => (context, ⟨pause, .over (.error (.broken fault))⟩)
      | .ok interval =>
          match context.takeAppender with
          | (context, .error failure) => (context, ⟨pause, .over (.error (.failed failure))⟩)
          | (context, .ok appender) => (context, ⟨pause, .readStart appender interval⟩)
  | .readStart appender interval => (context, ⟨pause, .ready ⟨appender, now, interval, 0⟩⟩)
  | .ready progress =>
      if progress.index = context.config.count then
        let stats : Stats := ⟨progress.index, now - progress.start⟩
        finish (context.say (.producerDone stats.line)) pause (.ok stats)
      else if progress.interval = 0 then
        if context.aborted then finish context pause (.error (.of .aborted))
        else (context, ⟨pause, .write progress⟩)
      else
        match due progress with
        | .error fault => finish context pause (.error (.broken fault))
        | .ok time =>
            if time ≤ now then (context, ⟨pause.reset, .write progress⟩)
            else (context, ⟨pause, .missed progress⟩)
  | .missed progress =>
      match pause.afterMiss context.aborted now with
      | (pause, .error problem) =>
          finish context pause (.error (problem.within (.pacing progress.index)))
      | (pause, .ok ()) => (context, ⟨pause, .ready progress⟩)
  | .write progress =>
      let count := context.config.count
      let every := context.config.progressEvery
      let edits := fill count progress.index now
      match context.onLog fun log => log.appendWith progress.appender edits with
      | (context, _, .error problem) =>
          finish context pause (.error (problem.within (.appending progress.index)))
      | (context, appender, .ok index) =>
          if index ≠ progress.index then
            finish context pause (.error (.broken (.indexMismatch index progress.index)))
          else
            let context := match progressNote every (toCome count index) with
              | some note => context.say note
              | none => context
            (context, ⟨pause, .ready ⟨appender, progress.start, progress.interval, index + 1⟩⟩)
  | .over outcome => (context, ⟨pause, .over outcome⟩)

def outcome (producer : Producer) : Option (Except Problem Stats) :=
  match producer.phase with
  | .over outcome => some outcome
  | _ => none

end Producer

end GatedPipeline.Worker
