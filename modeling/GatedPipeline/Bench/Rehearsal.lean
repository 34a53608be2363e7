import GatedPipeline.Bench.Program
import GatedPipeline.Pipeline

/-!
A benchmark in a world of its own: files are kept in a value, what is printed is written down, and
the clock goes on by itself. Whatever the program does can be seen in the diary afterwards.
-/

namespace GatedPipeline.Bench

/-- What a session has done so far, latest first, and the files as they are. The calls are the
pipelines it ran with the pauses of their workers, and the turns are those of the clock. -/
structure Diary where
  calls : List (Run.Config × Pause)
  printed : List String
  noted : List String
  storage : Storage
  turns : Nat

namespace Rehearsal

abbrev Act := StateM Diary

def start (storage : Storage) : Diary := ⟨[], [], [], storage, 0⟩

def save (path text : String) : Act (Except Storage.Refusal Unit) := do
  let diary ← get
  match diary.storage.write path text.toUTF8 with
  | .error refusal => return .error refusal
  | .ok storage =>
      set { diary with storage := storage }
      return .ok ()

/-- A host with a given way to run pipelines and a given time for reports. -/
def host (now : String) (run : Run.Config → Pause → Act (Except Problem Run.Report)) :
    Host Act where
  run config pause := do
    modify fun diary => { diary with calls := (config, pause) :: diary.calls }
    run config pause
  print line := modify fun diary => { diary with printed := line :: diary.printed }
  note line := modify fun diary => { diary with noted := line :: diary.noted }
  now := pure now
  save := save

/-- Runs a pipeline by the plain schedule; each turn takes one reading of the clock. -/
def execute (clock : Nat → Nat) (config : Run.Config) (pause : Pause) :
    Act (Except Problem Run.Report) := do
  let diary ← get
  let (storage, turns, outcome) := Pipeline.execute diary.storage config (fun _ => pause.copy)
    fun turn => clock (diary.turns + turn)
  set { diary with storage := storage, turns := diary.turns + turns }
  return outcome.getD (.error (.broken (.raised none)))

/-- The latencies that a run measures whose log holds the given records. -/
def latency (stages : Nat) (records : List (List Word)) : Except Problem Latency.Report := do
  let layout ← (Layout.ofStages stages).mapError Problem.failed
  let bytes ← orBroken (layout.bytesFor records.length)
  let log ← (Log.create .empty "" "relay" layout bytes).2
  let (log, appender) ← log.takeAppender.mapError Problem.failed
  let (log, _) ← records.foldlM (fun (log, appender) words => do
    let (log, appender, outcome) := log.append appender words
    let _ ← outcome
    return (log, appender)) (log, appender)
  orBroken (Latency.collectLog log)

/-- The whole program on a command line. Answers its exit code. -/
def program (clock : Nat → Nat) (now temporary : String) (words : List String) : Act Nat :=
  Program.answer (host now (execute clock)) false temporary
    (fun path => do return Settings.loadOrDefault (← get).storage temporary path) words

end Rehearsal

end GatedPipeline.Bench
