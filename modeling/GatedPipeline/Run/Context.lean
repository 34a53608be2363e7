import GatedPipeline.Event
import GatedPipeline.Gate
import GatedPipeline.Log.Append
import GatedPipeline.Log.Tail
import GatedPipeline.Run.Config

/-!
The shared state of one run: its log, its gates and its abort flag, in a fresh directory that goes
away with it.
-/

namespace GatedPipeline.Run

/-- The state that the workers of a run share: its log and its gates, the files with its own
directory among them, the request to give up, and what it has said about itself in order. -/
structure Context where
  config : Config
  log : Log
  gates : Registry
  aborted : Bool
  directory : String
  storage : Storage
  journal : Array Event

namespace Context

def logName : String := "relay"

def directoryStem : String := "relay-run-"

/-- Makes the log in the run's own directory; a directory whose log cannot be made is removed. -/
def fill (storage : Storage) (config : Config) (layout : Layout) (directory : String)
    (backing : Storage.Backing := .sound) : Except (Storage × Problem) Context :=
  let cleared (storage : Storage) : Storage :=
    (storage.removeDirectory directory).toOption.getD storage
  match layout.bytesFor config.count with
  | .error fault => .error (cleared storage, .broken fault)
  | .ok bytes =>
      match Log.create storage directory logName layout bytes backing with
      | (storage, .error problem) => .error (cleared storage, problem)
      | (storage, .ok log) =>
          .ok ⟨config, log, ⟨directory, []⟩, false, directory, storage,
            #[.logCreated log.name log.path log.capacity,
              .runCreated directory config.stages config.count bytes]⟩

/-- Makes the run's directory in the output directory, and what the run needs in it. -/
def create (storage : Storage) (config : Config) (backing : Storage.Backing := .sound) :
    Except (Storage × Problem) Context :=
  let refused (circumstance : Circumstance) (refusal : Storage.Refusal) : Problem :=
    .failed ⟨[circumstance], .storage refusal⟩
  match config.validate, Layout.ofStages config.stages with
  | .error failure, _ | _, .error failure => .error (storage, .failed failure)
  | .ok (), .ok layout =>
      match storage.makeDirectories config.outputDirectory with
      | (storage, .error refusal) =>
          .error (storage, refused (.creatingOutputDirectory config.outputDirectory) refusal)
      | (storage, .ok ()) =>
          match storage.makeFresh config.outputDirectory directoryStem with
          | .error refusal =>
              .error (storage, refused (.creatingRunDirectory config.outputDirectory) refusal)
          | .ok (storage, directory) => fill storage config layout directory backing

@[inline]
def onLog {α : Type} (context : Context) (work : Log → Log × α) : Context × α :=
  match context with
  | ⟨config, log, gates, aborted, directory, storage, journal⟩ =>
      let (log, answer) := work log
      (⟨config, log, gates, aborted, directory, storage, journal⟩, answer)

def say (context : Context) (event : Event) : Context :=
  match context with
  | ⟨config, log, gates, aborted, directory, storage, journal⟩ =>
      ⟨config, log, gates, aborted, directory, storage, journal.push event⟩

/-- The run asked to give up. -/
def abort (context : Context) : Context :=
  match context with
  | ⟨config, log, gates, _, directory, storage, journal⟩ =>
      ⟨config, log, gates, true, directory, storage, journal⟩

/-- The gate of an id, made by its first open. -/
def openGate (context : Context) (id : String) : Context × Except Failure Gate :=
  match context with
  | ⟨config, log, gates, aborted, directory, storage, journal⟩ =>
      match gates.open storage id with
      | .error failure =>
          (⟨config, log, gates, aborted, directory, storage, journal⟩, .error failure)
      | .ok (after, opened, gate) =>
          let journal := if (gates.find id).isNone then journal.push (.gateCreated id) else journal
          (⟨config, log, opened, aborted, directory, after, journal⟩, .ok gate)

def publish (context : Context) (gate : Gate) (index : Int) : Context × Except Fault Unit :=
  match gate.publish context.storage index with
  | .error fault => (context, .error fault)
  | .ok storage => ({ context with storage := storage }, .ok ())

def readGate (context : Context) (gate : Gate) : Int := gate.read context.storage

def hasCompleted (context : Context) (gate : Gate) (index : Nat) : Bool :=
  gate.hasCompleted context.storage index

def takeAppender (context : Context) : Context × Except Failure Appender :=
  context.onLog fun log =>
    match log.takeAppender with
    | .error failure => (log, .error failure)
    | .ok (log, appender) => (log, .ok appender)

def releaseAppender (context : Context) : Context :=
  (context.onLog fun log => (log.releaseAppender, ())).1

def gateValues (context : Context) : List (String × Int) := context.gates.snapshot context.storage

/-- Removes the run's directory and says so if that fails. -/
def close (context : Context) : Storage × Except Failure Unit :=
  match context.storage.removeDirectory context.directory with
  | .ok storage => (storage, .ok ())
  | .error refusal =>
      (context.storage,
        .error ⟨[.removingRunDirectory context.directory], .storageAt refusal context.directory⟩)

/-- Removes the run's directory without a word. -/
def drop (context : Context) : Storage := context.close.1

def describe (context : Context) : String :=
  "RunContext \x7b dir: " ++ Text.quote context.directory ++ ", stages: " ++
    toString context.config.stages ++ ", count: " ++ toString context.config.count ++
    ", aborted: " ++ toString context.aborted ++ " \x7d"

end Context

end GatedPipeline.Run
