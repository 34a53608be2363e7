import GatedPipeline.Latency.Report
import GatedPipeline.Worker.Crew

/-!
A whole run. A supervisor starts the pretoucher and the workers, receives the exit report of each
worker, and asks the run to give up when the first error comes in. When all workers have reported
it collects the latencies and removes the run's directory. Workers, pretoucher and supervisor take
turns in any order; a schedule says in which.
-/

namespace GatedPipeline

namespace Run

/-- What a run measured. The stages come in their order, the gates with their final values in the
order of ids, and the pages that the pretoucher touched are known only if it stopped in time. -/
structure Report where
  stages : Nat
  producer : Worker.Producer.Stats
  stageStats : List Worker.Stage.Stats
  latency : Latency.Report
  gates : List (String × Int)
  pretouchedPages : Option Nat
  deriving DecidableEq, Repr

namespace Report

def throughputLine (report : Report) : String := report.producer.line

def gate (report : Report) (id : String) : Option Int := report.gates.lookup id

end Report

end Run

namespace Pipeline

structure Exit where
  role : Worker.Role
  outcome : Except Problem Worker.Deed

/-- The thread that touches pages. It holds the run's shared state until it has stopped, which it
does some time after it has been told to, or until it breaks on a fault. -/
inductive Pretoucher where
  | running (pages : Nat)
  | stopping (pages : Nat)
  | stopped (pages : Nat)
  | broken
  deriving DecidableEq, Repr

def Pretoucher.holdsRun : Pretoucher → Bool
  | .running _ | .stopping _ => true
  | .stopped _ | .broken => false

/-- What the supervisor has heard so far. It keeps the first error reported and counts the reports
received, and it is `minding` the pretoucher until that has been told to stop. -/
structure Notes where
  producer : Option Worker.Producer.Stats
  stages : List Worker.Stage.Stats
  pretouchedPages : Option Nat
  error : Option Failure
  received : Nat
  minding : Bool

/-- What the supervisor does next. When the producer has reported success it waits for the
pretoucher and then goes on receiving. When all workers have reported it winds down, which is to
wait for the pretoucher if it has not done so yet, and concludes. -/
inductive Duty where
  | receive (notes : Notes)
  | awaitPretoucher (notes : Notes)
  | windDown (notes : Notes)
  | conclude (notes : Notes)
  | returned (outcome : Except Problem Run.Report)

end Pipeline

/-- A run in progress. The list `sent` tells for each worker whether it has sent its report, and the
mailbox holds the reports that were sent and not yet received, the oldest first. -/
structure Pipeline where
  crew : Crew
  sent : List Bool
  mailbox : List Pipeline.Exit
  pretoucher : Pipeline.Pretoucher
  supervisor : Pipeline.Duty

namespace Pipeline

def start (context : Run.Context) (pause : Worker.Role → Pause) : Pipeline :=
  let crew := Crew.start context pause
  ⟨crew, crew.workers.map fun _ => false, [], .running 0,
    .receive ⟨none, [], none, none, 0, true⟩⟩

/-- A turn in a run. A worker works at a clock reading, or sends its report if it is over. A
supervisor that has to wait for the pretoucher goes on waiting if it is patient. -/
inductive Turn where
  | worker (index now : Nat)
  | pretoucher
  | supervisor (patient : Bool)
  deriving DecidableEq, Repr

def Notes.receive (notes : Notes) (exit : Exit) : Notes :=
  let notes := { notes with received := notes.received + 1 }
  match exit.outcome with
  | .ok (.produced stats) => { notes with producer := some stats }
  | .ok (.staged stats) => { notes with stages := notes.stages ++ [stats] }
  | .error problem =>
      if notes.error.isSome then notes
      else { notes with error := some (problem.reported.within (.worker exit.role.name)) }

def Notes.isFirstError (notes : Notes) (exit : Exit) : Bool :=
  match exit.outcome with
  | .ok _ => false
  | .error _ => notes.error.isNone

def Exit.isProducerDone (exit : Exit) : Bool :=
  match exit.outcome with
  | .ok (.produced _) => true
  | _ => false

/-- Removes the run's directory at the end of a run that succeeded: as the last holder of the
shared state, or, if the pretoucher still holds it, out from under it. -/
def removeDirectory (context : Run.Context) (shared : Bool) : Run.Context × Except Failure Unit :=
  if shared then
    match context.storage.removeDirectory context.directory with
    | .ok storage => ({ context with storage := storage }, .ok ())
    | .error refusal =>
        (context, .error ⟨[.removingRunDirectory context.directory], .storage refusal⟩)
  else
    match context.close with
    | (storage, outcome) => ({ context with storage := storage }, outcome)

/-- The supervisor gives up the shared state; the last holder removes the directory. -/
def release (context : Run.Context) (shared : Bool) : Run.Context :=
  if shared then context else { context with storage := context.drop }

def conclude (context : Run.Context) (shared : Bool) (notes : Notes) :
    Run.Context × Except Problem Run.Report :=
  match notes.error, notes.producer with
  | some failure, _ => (release context shared, .error (.failed failure))
  | none, none => (release context shared, .error (.of .producerSilent))
  | none, some producer =>
      match Latency.collect context with
      | (context, .error fault) => (release context shared, .error (.broken fault))
      | (context, .ok latency) =>
          if latency.records ≠ producer.written then
            (release context shared,
              .error (.of (.recordsDisagree latency.records producer.written)))
          else
            let stages := notes.stages.mergeSort fun one other => one.stage ≤ other.stage
            let gates := context.gateValues
            match removeDirectory context shared with
            | (context, .error failure) => (release context shared, .error (.failed failure))
            | (context, .ok ()) =>
                (context, .ok ⟨context.config.stages, producer, stages, latency, gates,
                  notes.pretouchedPages⟩)

/-- What waiting for the pretoucher gives: its pages, nothing, or still to wait. -/
def Pretoucher.awaited (pretoucher : Pretoucher) (patient : Bool) : Option (Option Nat) :=
  match pretoucher with
  | .stopped pages => some (some pages)
  | .broken => some none
  | .running _ | .stopping _ => if patient then none else some none

def Pretoucher.tellToStop : Pretoucher → Pretoucher
  | .running pages => .stopping pages
  | pretoucher => pretoucher

def supervise (patient : Bool) (pipeline : Pipeline) : Pipeline :=
  match pipeline with
  | ⟨⟨context, workers⟩, sent, mailbox, pretoucher, supervisor⟩ =>
      match supervisor with
      | .receive notes =>
          if notes.received = workers.length then
            let told := if notes.minding then pretoucher.tellToStop else pretoucher
            ⟨⟨context, workers⟩, sent, mailbox, told,
              if notes.minding then .windDown notes else .conclude notes⟩
          else
            match mailbox with
            | [] => ⟨⟨context, workers⟩, sent, [], pretoucher, .receive notes⟩
            | exit :: rest =>
                let context := if notes.isFirstError exit then context.abort else context
                let heard := notes.receive exit
                if exit.isProducerDone && notes.minding then
                  ⟨⟨context, workers⟩, sent, rest, pretoucher.tellToStop,
                    .awaitPretoucher { heard with minding := false }⟩
                else ⟨⟨context, workers⟩, sent, rest, pretoucher, .receive heard⟩
      | .awaitPretoucher notes =>
          ⟨⟨context, workers⟩, sent, mailbox, pretoucher,
            match pretoucher.awaited patient with
            | none => .awaitPretoucher notes
            | some pages => .receive { notes with pretouchedPages := pages }⟩
      | .windDown notes =>
          ⟨⟨context, workers⟩, sent, mailbox, pretoucher,
            match pretoucher.awaited patient with
            | none => .windDown notes
            | some _ => .conclude { notes with minding := false }⟩
      | .conclude notes =>
          match conclude context pretoucher.holdsRun notes with
          | (context, outcome) =>
              ⟨⟨context, workers⟩, sent, mailbox, pretoucher, .returned outcome⟩
      | .returned outcome =>
          ⟨⟨context, workers⟩, sent, mailbox, pretoucher, .returned outcome⟩

/-- Whether the supervisor has returned, and with it given up the shared state. -/
def hasReturned (pipeline : Pipeline) : Bool :=
  match pipeline.supervisor with
  | .returned _ => true
  | _ => false

/-- One turn of the pretoucher. If it is the last to hold the shared state, the directory goes
away when it stops. -/
def pretouch (pipeline : Pipeline) : Pipeline :=
  let last := pipeline.hasReturned
  match pipeline with
  | ⟨⟨context, workers⟩, sent, mailbox, pretoucher, supervisor⟩ =>
      let released (context : Run.Context) : Run.Context :=
        if last then release context false else context
      match pretoucher with
      | .running pages =>
          match context.onLog fun log =>
            match log.pretouch with
            | .ok (log, touched) => (log, some touched.length)
            | .error _ => (log, none)
          with
          | (context, some touched) =>
              ⟨⟨context, workers⟩, sent, mailbox, .running (pages + touched), supervisor⟩
          | (context, none) =>
              ⟨⟨released context, workers⟩, sent, mailbox, .broken, supervisor⟩
      | .stopping pages =>
          ⟨⟨released context, workers⟩, sent, mailbox, .stopped pages, supervisor⟩
      | .stopped pages => ⟨⟨context, workers⟩, sent, mailbox, .stopped pages, supervisor⟩
      | .broken => ⟨⟨context, workers⟩, sent, mailbox, .broken, supervisor⟩

/-- One turn of a worker: it works, or sends its report once it is over. -/
def work (index now : Nat) (pipeline : Pipeline) : Pipeline :=
  match pipeline with
  | ⟨crew, sent, mailbox, pretoucher, supervisor⟩ =>
      match (crew.workers[index]?).bind fun worker => worker.outcome.map fun o => (worker.role, o)
      with
      | none => ⟨crew.step (.work index now), sent, mailbox, pretoucher, supervisor⟩
      | some (role, outcome) =>
          if sent.getD index true then ⟨crew, sent, mailbox, pretoucher, supervisor⟩
          else ⟨crew, sent.set index true, mailbox ++ [⟨role, outcome⟩], pretoucher, supervisor⟩

def turn (pipeline : Pipeline) : Turn → Pipeline
  | .worker index now => pipeline.work index now
  | .pretoucher => pipeline.pretouch
  | .supervisor patient => pipeline.supervise patient

def run (pipeline : Pipeline) (schedule : List Turn) : Pipeline := schedule.foldl turn pipeline

def outcome (pipeline : Pipeline) : Option (Except Problem Run.Report) :=
  match pipeline.supervisor with
  | .returned outcome => some outcome
  | _ => none

/-- The plain schedule: every worker, then the pretoucher, then the supervisor, over and over. -/
def inTurn (workers : Nat) (clock : Nat → Nat) (turns : Nat) : Turn :=
  let place := turns % (workers + 2)
  if place < workers then .worker place (clock turns)
  else if place = workers then .pretoucher
  else .supervisor true

/-- Takes turns by the plain schedule until the run returns or `fuel` turns are spent. -/
def runInTurn (clock : Nat → Nat) : (fuel turns : Nat) → Pipeline → Pipeline × Nat
  | 0, turns, pipeline => (pipeline, turns)
  | fuel + 1, turns, pipeline =>
      if pipeline.hasReturned then (pipeline, turns)
      else runInTurn clock fuel (turns + 1)
        (pipeline.turn (inTurn pipeline.crew.workers.length clock turns))

/-- Turns after which a run is given up as one that never ends. -/
def patience : Nat := 1000000000000

/-- Creates and runs a pipeline by the plain schedule. Answers the files afterwards, how many turns
it took, and its outcome, which is missing if the run did not end. -/
def execute (storage : Storage) (config : Run.Config) (pause : Worker.Role → Pause)
    (clock : Nat → Nat) : Storage × Nat × Option (Except Problem Run.Report) :=
  match Run.Context.create storage config with
  | .error (storage, problem) => (storage, 0, some (.error problem))
  | .ok context =>
      match runInTurn clock patience 0 (start context pause) with
      | (pipeline, turns) => (pipeline.crew.context.storage, turns, pipeline.outcome)

end Pipeline

end GatedPipeline
