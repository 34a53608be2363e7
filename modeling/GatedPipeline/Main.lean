import GatedPipeline.Bench.Program
import GatedPipeline.Pipeline
import GatedPipeline.Text.Time

/-!
The program on a real machine: settings and reports are files, the clock is the machine's, and the
run's own files are kept in memory. Everything but reading, printing and the clock is decided by
the library.
-/

namespace GatedPipeline.Bench.Machine

def refusalOf : IO.Error → Storage.Refusal
  | .alreadyExists .. => .taken
  | .inappropriateType _ code _ => if code = 21 then .isDirectory else .notDirectory
  | .permissionDenied .. => .denied
  | _ => .missing

/-- The settings of a file, or the defaults if there is none. -/
def load (temporary path : String) : IO (Except Failure Settings) := do
  let bytes ← (IO.FS.readBinFile path).toBaseIO
  match bytes with
  | .ok bytes => return Settings.ofFile (.defaults temporary) path (.ok bytes)
  | .error (.noFileOrDirectory ..) => return .ok (.defaults temporary)
  | .error error => return Settings.ofFile (.defaults temporary) path (.error (refusalOf error))

def save (path text : String) : IO (Except Storage.Refusal Unit) := do
  match ← (IO.FS.writeFile path text).toBaseIO with
  | .ok () => return .ok ()
  | .error error => return .error (refusalOf error)

/-- The time of day, as the machine dates a file that is made now. -/
def now : IO String := do
  let (_, path) ← IO.FS.createTempFile
  let dated ← path.metadata
  IO.FS.removeFile path
  return Text.timestamp dated.modified.sec dated.modified.nsec.toNat

/-- Takes turns with readings of the machine's clock until the run returns. -/
partial def drive (turns : Nat) (pipeline : Pipeline) : IO (Except Problem Run.Report) := do
  match pipeline.outcome with
  | some outcome => return outcome
  | none =>
      let reading ← IO.monoNanosNow
      let workers := pipeline.crew.workers.length
      drive (turns + 1) (pipeline.turn (Pipeline.inTurn workers (fun _ => reading) turns))

/-- Makes the output directory on the machine, and runs the pipeline in a directory like it. -/
def run (config : Run.Config) (pause : Pause) : IO (Except Problem Run.Report) := do
  match config.validate with
  | .error failure => return .error (.failed failure)
  | .ok () =>
      match ← (IO.FS.createDirAll config.outputDirectory).toBaseIO with
      | .error error =>
          return .error (.failed
            ⟨[.creatingOutputDirectory config.outputDirectory], .storage (refusalOf error)⟩)
      | .ok () =>
          match Run.Context.create .empty config with
          | .error (_, problem) => return .error problem
          | .ok context => drive 0 (.start context fun _ => pause.copy)

def host : Host IO where
  run := run
  print line := IO.println line
  note line := IO.eprintln line
  now := now
  save := save

end GatedPipeline.Bench.Machine

def main (words : List String) : IO UInt32 := do
  let terminal ← (← IO.getStdout).isTty
  let noColor ← IO.getEnv "NO_COLOR"
  let temporary := (← IO.getEnv "TMPDIR").getD "/tmp"
  let color := GatedPipeline.Bench.colored terminal noColor.isSome
  let code ← GatedPipeline.Bench.Program.answer GatedPipeline.Bench.Machine.host color temporary
    (GatedPipeline.Bench.Machine.load temporary) words
  return UInt32.ofNat code
