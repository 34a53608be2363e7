import GatedPipeline.Pause
import GatedPipeline.Run.Context

/-!
A stage. It follows the log record by record; each record it lets through only after the stage
before it has completed it, stamps it, and completes it by publishing to its own gate. A stage
stamps before it publishes, so whoever sees the gate at `i` also finds the stamp on record `i`.
Like the producer it works in turns of at most one shared action.
-/

namespace GatedPipeline.Worker

namespace Stage

structure Stats where
  stage : Nat
  processed : Nat
  lastIndex : Nat
  deriving DecidableEq, Repr

/-- What a stage works with once its gates are open. The first stage has no previous gate. -/
structure Duty where
  gate : Gate
  previous : Option Gate
  tailer : Tailer
  processed : Nat
  deriving DecidableEq, Repr

/-- What a stage does next. When it has published a record it looks whether that was the last one.
-/
inductive Phase where
  | begin
  | openPrevious (gate : Gate)
  | awaitRecord (duty : Duty)
  | missedRecord (duty : Duty)
  | awaitPrevious (duty : Duty) (entry : Entry)
  | missedPrevious (duty : Duty) (entry : Entry)
  | stamp (duty : Duty) (entry : Entry)
  | startDelay (duty : Duty) (entry : Entry) (delay : Nat)
  | spin (duty : Duty) (entry : Entry) (deadline : Nat)
  | publish (duty : Duty) (entry : Entry)
  | published (duty : Duty) (entry : Entry)
  | over (outcome : Except Problem Stats)

end Stage

structure Stage where
  number : Nat
  pause : Pause
  phase : Stage.Phase

namespace Stage

def start (number : Nat) (pause : Pause) : Stage := ⟨number, pause, .begin⟩

/-- The clock reading at which a delay that starts now is over. -/
def delayEnd (now delay : Nat) : Nat := min (now + delay % wordLimit) (wordLimit - 1)

/-- The signed value that a gate is set to for a record. -/
def gateValue (entry : Entry) : Int := Word.signed (UInt64.ofNat entry.index)

def turn (now : Nat) (context : Run.Context) (stage : Stage) : Run.Context × Stage :=
  let number := stage.number
  let pause := stage.pause
  let next (context : Run.Context) (phase : Phase) : Run.Context × Stage :=
    (context, ⟨number, pause, phase⟩)
  match stage.phase with
  | .begin =>
      if number = 0 ∨ context.config.stages < number then
        next context (.over (.error (.of (.stageOutOfRange number context.config.stages))))
      else
        match context.openGate (Gate.ofStage number) with
        | (context, .error failure) => next context (.over (.error (.failed failure)))
        | (context, .ok gate) =>
            if number = 1 then
              next (context.say (.stageStarted number none)) (.awaitRecord ⟨gate, none, .start, 0⟩)
            else next context (.openPrevious gate)
  | .openPrevious gate =>
      match context.openGate (Gate.ofStage (number - 1)) with
      | (context, .error failure) => next context (.over (.error (.failed failure)))
      | (context, .ok previous) =>
          next (context.say (.stageStarted number (some previous.id)))
            (.awaitRecord ⟨gate, some previous, .start, 0⟩)
  | .awaitRecord duty =>
      match duty.tailer.read context.log with
      | (_, .error fault) => next context (.over (.error (.broken fault)))
      | (tailer, .ok none) => next context (.missedRecord { duty with tailer := tailer })
      | (tailer, .ok (some entry)) =>
          let duty := { duty with tailer := tailer }
          (context, ⟨number, pause.reset,
            if duty.previous.isSome then .awaitPrevious duty entry else .stamp duty entry⟩)
  | .missedRecord duty =>
      match pause.afterMiss context.aborted now with
      | (pause, .ok ()) => (context, ⟨number, pause, .awaitRecord duty⟩)
      | (pause, .error problem) =>
          (context, ⟨number, pause,
            .over (.error (problem.within (.awaitingRecord number duty.tailer.next)))⟩)
  | .awaitPrevious duty entry =>
      match duty.previous with
      | none => next context (.stamp duty entry)
      | some previous =>
          if context.hasCompleted previous entry.index then
            (context, ⟨number, pause.reset, .stamp duty entry⟩)
          else next context (.missedPrevious duty entry)
  | .missedPrevious duty entry =>
      match pause.afterMiss context.aborted now with
      | (pause, .ok ()) => (context, ⟨number, pause, .awaitPrevious duty entry⟩)
      | (pause, .error problem) =>
          let gate := (duty.previous.map Gate.id).getD ""
          (context, ⟨number, pause,
            .over (.error (problem.within (.awaitingGate number gate entry.index)))⟩)
  | .stamp duty entry =>
      match context.onLog fun log => log.edit entry.view (.stamp number (UInt64.ofNat now)) with
      | (context, .error fault) => next context (.over (.error (.broken fault)))
      | (context, .ok ()) =>
          match context.config.delayOf number with
          | some delay => next context (.startDelay duty entry delay)
          | none => next context (.publish duty entry)
  | .startDelay duty entry delay => next context (.spin duty entry (delayEnd now delay))
  | .spin duty entry deadline =>
      next context (if now < deadline then .spin duty entry deadline else .publish duty entry)
  | .publish duty entry =>
      match context.publish duty.gate (gateValue entry) with
      | (context, .error fault) => next context (.over (.error (.broken fault)))
      | (context, .ok ()) =>
          next context (.published { duty with processed := duty.processed + 1 } entry)
  | .published duty entry =>
      if (context.log.record entry.view).isLast then
        next (context.say (.stageDone number duty.processed entry.index))
          (.over (.ok ⟨number, duty.processed, entry.index⟩))
      else next context (.awaitRecord duty)
  | .over outcome => next context (.over outcome)

def outcome (stage : Stage) : Option (Except Problem Stats) :=
  match stage.phase with
  | .over outcome => some outcome
  | _ => none

end Stage

end GatedPipeline.Worker
