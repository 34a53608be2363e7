import GatedPipeline.Worker.Producer
import GatedPipeline.Worker.Stage

/-!
The workers of a run on its shared state. Whatever order their turns come in is a list of steps;
the run can be asked to give up between any two of them.
-/

namespace GatedPipeline

namespace Worker

inductive Role where
  | producer
  | stage (number : Nat)
  deriving DecidableEq, Repr

def Role.name : Role → String
  | .producer => "relay-producer"
  | .stage number => "relay-stage-" ++ toString number

inductive Deed where
  | produced (stats : Producer.Stats)
  | staged (stats : Stage.Stats)
  deriving DecidableEq, Repr

end Worker

inductive Worker where
  | producer (producer : Worker.Producer)
  | stage (stage : Worker.Stage)

namespace Worker

def start (pause : Pause) : Role → Worker
  | .producer => .producer (.start pause)
  | .stage number => .stage (.start number pause)

def role : Worker → Role
  | .producer _ => .producer
  | .stage worker => .stage worker.number

def turn (now : Nat) (context : Run.Context) : Worker → Run.Context × Worker
  | .producer worker =>
      match worker.turn now context with
      | (context, worker) => (context, .producer worker)
  | .stage worker =>
      match worker.turn now context with
      | (context, worker) => (context, .stage worker)

def outcome : Worker → Option (Except Problem Deed)
  | .producer worker => worker.outcome.map (·.map Deed.produced)
  | .stage worker => worker.outcome.map (·.map Deed.staged)

def isOver (worker : Worker) : Bool := worker.outcome.isSome

/-- Gives one worker turns, up to so many, with the readings of a clock, until it is over. Answers
how many turns it took. -/
def runAlone (clock : Nat → Nat) : (fuel turns : Nat) → Run.Context → Worker →
    Run.Context × Worker × Nat
  | 0, turns, context, worker => (context, worker, turns)
  | fuel + 1, turns, context, worker =>
      if worker.isOver then (context, worker, turns)
      else
        match worker.turn (clock turns) context with
        | (context, worker) => runAlone clock fuel (turns + 1) context worker

end Worker

structure Crew where
  context : Run.Context
  workers : List Worker

namespace Crew

/-- The roles of a run, in the order in which workers start: the last stage first, so that every
stage waits already when the first record comes, and the producer at the end. -/
def roles (stages : Nat) : List Worker.Role :=
  (List.range stages).reverse.map (fun k => .stage (k + 1)) ++ [.producer]

def core (config : Run.Config) : Worker.Role → Option Nat
  | .producer => config.coreOf 0
  | .stage number => config.coreOf number

/-- What is said of a core that cannot be pinned. -/
def pinNotes (core : Nat) : List Event := if maxCore ≤ core then [.coreOutOfRange core] else []

def pin (context : Run.Context) (core : Option Nat) : Run.Context :=
  (core.toList.flatMap pinNotes).foldl Run.Context.say context

/-- All workers of a run, each with a pause of its own. -/
def start (context : Run.Context) (pause : Worker.Role → Pause) : Crew :=
  let roles := roles context.config.stages
  ⟨roles.foldl (fun context role => pin context (core context.config role)) context,
    roles.map fun role => .start (pause role) role⟩

/-- What happens next: worker `index` takes a turn at a clock reading, or the run is asked to give
up. -/
inductive Step where
  | work (index now : Nat)
  | abort
  deriving DecidableEq, Repr

def step (crew : Crew) : Step → Crew
  | .work index now =>
      match crew with
      | ⟨context, workers⟩ =>
          match workers[index]? with
          | none => ⟨context, workers⟩
          | some worker =>
              match worker.turn now context with
              | (context, worker) => ⟨context, workers.set index worker⟩
  | .abort =>
      match crew with
      | ⟨context, workers⟩ => ⟨context.abort, workers⟩

def run (crew : Crew) (steps : List Step) : Crew := steps.foldl step crew

def allOver (crew : Crew) : Bool := crew.workers.all Worker.isOver

/-- Gives all workers turns, one after the other, until all are over or `fuel` turns are spent. -/
def runInTurn (clock : Nat → Nat) : (fuel turns : Nat) → Crew → Crew
  | 0, _, crew => crew
  | fuel + 1, turns, crew =>
      if turns % crew.workers.length = 0 && crew.allOver then crew
      else runInTurn clock fuel (turns + 1)
        (crew.step (.work (turns % crew.workers.length) (clock turns)))

end Crew

end GatedPipeline
