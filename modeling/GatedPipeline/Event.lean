import GatedPipeline.Limits
import GatedPipeline.Text.Quote

/-!
The journal of a run: what it says about itself while it works.
-/

namespace GatedPipeline

/-- Something that a run says about itself while it goes on. The text of `producerDone` is the
producer's line on its rate. -/
inductive Event where
  | logCreated (log path : String) (capacity : Nat)
  | runCreated (directory : String) (stages count bytes : Nat)
  | gateCreated (gate : String)
  | stageStarted (stage : Nat) (previous : Option String)
  | stageDone (stage processed lastIndex : Nat)
  | producerProgress (remaining : Nat)
  | producerDone (line : String)
  | recordsIncomplete (records : Nat)
  | latencyCollected (records : Nat)
  | coreOutOfRange (core : Nat)
  deriving DecidableEq, Repr

namespace Event

def level : Event → String
  | .runCreated .. => "INFO"
  | .recordsIncomplete _ | .coreOutOfRange _ => "WARN"
  | _ => "DEBUG"

def message : Event → String
  | .logCreated log path capacity => s!"log created log={log} path={path} capacity={capacity}"
  | .runCreated directory stages count bytes =>
      s!"run created dir={directory} stages={stages} count={count} log_bytes={bytes}"
  | .gateCreated gate => "gate created gate=" ++ gate
  | .stageStarted stage none => s!"stage started stage={stage} upstream=None"
  | .stageStarted stage (some gate) =>
      s!"stage started stage={stage} upstream=Some(" ++ Text.quote gate ++ ")"
  | .stageDone stage processed lastIndex =>
      s!"stage done stage={stage} processed={processed} last_index={lastIndex}"
  | .producerProgress remaining => s!"producer progress remaining={remaining}"
  | .producerDone line => line
  | .recordsIncomplete records => s!"records missing stage timestamps incomplete={records}"
  | .latencyCollected records => s!"latency collected records={records}"
  | .coreOutOfRange core => s!"core id out of range; not pinning core_id={core} max={maxCore}"

def text (event : Event) : String := event.level ++ " " ++ event.message

end Event

end GatedPipeline
