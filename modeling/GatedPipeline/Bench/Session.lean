import GatedPipeline.Bench.Report
import GatedPipeline.Bench.Settings
import GatedPipeline.Pause

/-!
A benchmark session: a warm-up pass if there is to be one, the measured run, its tables, and the
report file if one is asked for. What the session does to the world it does through a host.
-/

namespace GatedPipeline.Bench

/-- What a session needs of the world around it. It runs pipelines whose workers wait as a pause
says, prints lines and notes lines on the side, tells the time as reports have it, and saves files.
-/
structure Host (m : Type → Type) where
  run : Run.Config → Pause → m (Except Problem Run.Report)
  print : String → m Unit
  note : String → m Unit
  now : m String
  save : (path text : String) → m (Except Storage.Refusal Unit)

namespace Session

/-- How the workers wait: for ever, or up to the stall time. -/
def pause (settings : Settings) : Pause :=
  match settings.stallTime with
  | some timeout => .within timeout
  | none => .yielding

def banner (config : Run.Config) : String :=
  s!"relaybench: {config.stages} stage(s), {config.count} records, " ++
    match config.throughput with
    | some rate => s!"{rate} records/s"
    | none => "unpaced"

def printAll {m : Type → Type} [Monad m] (host : Host m) : List String → m Unit
  | [] => pure ()
  | line :: rest => do host.print line; printAll host rest

def run {m : Type → Type} [Monad m] (host : Host m) (color : Bool) (settings : Settings)
    (reportPath : Option String) : ExceptT Problem m Unit := do
  let config ← ExceptT.mk (pure settings.runConfig)
  host.note (banner config)
  if settings.warmup && 0 < settings.warmupCount then
    host.note s!"  warm-up: {settings.warmupCount} records..."
    let warmup ← ExceptT.mk (pure settings.warmupConfig)
    let _ ← ExceptT.mk (host.run warmup (pause settings))
  let measured ← ExceptT.mk (host.run config (pause settings))
  let report : Report := ⟨← host.now, config.throughput, measured⟩
  (printAll host (report.summary color) : m Unit)
  match reportPath with
  | none => return ()
  | some path =>
      match ← host.save path report.document.text with
      | .error refusal => throw (.of (.storage refusal))
      | .ok () => host.note ("Report written to " ++ path)

end Session

end GatedPipeline.Bench
