import GatedPipeline.Storage
import GatedPipeline.Text.Quote
import GatedPipeline.Text.Time

/-!
What can go wrong. A failure is an answer: a cause and the circumstances around it, outermost
first. A fault is a broken check inside an operation; it stops the operation where it stands.
-/

namespace GatedPipeline

/-- A check that broke and took its thread along. A misplaced access to log storage is one that is
not word aligned or leaves the storage, a malformed header is neither empty nor a filler nor a
record, and a record is too short when it has no slot for its first stage. With `indexMismatch` the
log gave a record another index than its producer counted. A fault can also be raised with a text of
its own or with none. -/
inductive Fault where
  | addOverflow
  | subtractOverflow
  | multiplyOverflow
  | divideByZero
  | indexOutOfBounds (length index : Nat)
  | gateMovedBackwards (id : String)
  | misplacedAccess (position words : Nat)
  | malformedHeader (position : Nat)
  | recordTooShort (words : Nat)
  | indexMismatch (index expected : Nat)
  | raised (text : Option String)
  deriving DecidableEq, Repr

def Fault.text : Fault → String
  | .addOverflow => "attempt to add with overflow"
  | .subtractOverflow => "attempt to subtract with overflow"
  | .multiplyOverflow => "attempt to multiply with overflow"
  | .divideByZero => "attempt to divide by zero"
  | .indexOutOfBounds length index =>
      s!"index out of bounds: the len is {length} but the index is {index}"
  | .gateMovedBackwards id => s!"gate {id} moved backwards"
  | .misplacedAccess position words => s!"misplaced access to {words} words at {position}"
  | .malformedHeader position => s!"malformed header at {position}"
  | .recordTooShort words => s!"record of {words} words is too short"
  | .indexMismatch index expected => s!"record {index} appended as record {expected}"
  | .raised text => text.getD "unknown panic payload"

inductive Circumstance where
  | creatingLog (path : String)
  | sizingLog (path : String) (bytes : Nat)
  | mappingLog (path : String)
  | creatingGate (path : String)
  | sizingGate (path : String)
  | mappingGate (path : String)
  | creatingOutputDirectory (path : String)
  | creatingRunDirectory (parent : String)
  | removingRunDirectory (path : String)
  | pacing (record : Nat)
  | appending (record : Nat)
  | awaitingRecord (stage record : Nat)
  | awaitingGate (stage : Nat) (gate : String) (record : Nat)
  | worker (role : String)
  | readingSettings (path : String)
  | parsingSettings (path : String)
  deriving DecidableEq, Repr

def Circumstance.text : Circumstance → String
  | .creatingLog path => "failed to create log file: " ++ path
  | .sizingLog path bytes => s!"failed to size log file {path} to {bytes} bytes"
  | .mappingLog path => "failed to map log file: " ++ path
  | .creatingGate path => "failed to create gate file: " ++ path
  | .sizingGate path => "failed to size gate file: " ++ path
  | .mappingGate path => "failed to map gate file: " ++ path
  | .creatingOutputDirectory path => "failed to create output directory: " ++ path
  | .creatingRunDirectory parent => "failed to create run directory in " ++ parent
  | .removingRunDirectory path => "failed to remove run directory " ++ path
  | .pacing record => s!"producer pacing record {record}"
  | .appending record => s!"producer failed to append record {record}"
  | .awaitingRecord stage record => s!"stage {stage} waiting for record {record}"
  | .awaitingGate stage gate record =>
      s!"stage {stage} waiting for {gate} to reach record {record}"
  | .worker role => role ++ " failed"
  | .readingSettings path => "failed to read config file: " ++ path
  | .parsingSettings path => "failed to parse config file: " ++ path

/-- The reason of a failure. A log or a gate is at null when the system mapped it to that address,
`settings` is a complaint about a settings text, and `injected` is a failure that a wait was told to
give. -/
inductive Cause where
  | noStages
  | tooManyStages (requested : Nat)
  | stageCountZero
  | stageCountTooLarge (stages : Nat)
  | recordCountZero
  | throughputZero
  | throughputTooHigh (throughput : Nat)
  | tooManyDelays (given stages : Nat)
  | tooManyCores (given workers : Nat)
  | coreOutOfRange (core : Nat)
  | recordTooWide (words holds : Nat)
  | logFull (log : String) (record bytes offset capacity : Nat)
  | appenderTaken (log : String)
  | notCommitted (log : String) (record committed : Nat)
  | aborted
  | noProgress (polls : Nat)
  | stalled (milliseconds : Nat)
  | stageOutOfRange (stage stages : Nat)
  | logAtNull
  | gateAtNull
  | storage (refusal : Storage.Refusal)
  | storageAt (refusal : Storage.Refusal) (path : String)
  | broke (fault : Fault)
  | producerSilent
  | recordsDisagree (read written : Nat)
  | stallTooShort (milliseconds gap throughput : Nat)
  | settings (text : String)
  | injected (text : String)
  deriving DecidableEq, Repr

def Cause.text : Cause → String
  | .noStages => "a record needs at least one stage"
  | .tooManyStages requested => s!"{requested} stages requested; records hold at most {maxStages}"
  | .stageCountZero => "stage count must be at least 1"
  | .stageCountTooLarge stages =>
      s!"stage count {stages} exceeds the record capacity of {maxStages}"
  | .recordCountZero => "record count must be at least 1"
  | .throughputZero => "throughput must be positive (omit it to run unpaced)"
  | .throughputTooHigh throughput =>
      s!"throughput {throughput} records/s exceeds {maxThroughput} (omit it to run unpaced)"
  | .tooManyDelays given stages =>
      s!"stage delays given for {given} stages but only {stages} configured"
  | .tooManyCores given workers => s!"{given} pin cores given for {workers} worker threads"
  | .coreOutOfRange core => s!"pin core {core} is out of range (must be below {maxCore})"
  | .recordTooWide words holds => s!"record has {words} words, layout holds {holds}"
  | .logFull log record bytes offset capacity =>
      s!"log {log} is full: record {record} needs {bytes} bytes at offset {offset}, " ++
        s!"capacity is {capacity}"
  | .appenderTaken log => s!"log {log} already has an appender"
  | .notCommitted log record committed =>
      s!"cannot seek log {log} to index {record}: only {committed} records committed"
  | .aborted => "run aborted"
  | .noProgress polls => s!"no progress after {polls} consecutive polls"
  | .stalled milliseconds => s!"stalled for more than {milliseconds} ms"
  | .stageOutOfRange stage stages => s!"stage {stage} out of range 1..={stages}"
  | .logAtNull => "log mapping returned a null pointer"
  | .gateAtNull => "gate mapping returned a null pointer"
  | .storage refusal => refusal.text
  | .storageAt refusal path => refusal.text ++ " at path " ++ Text.quote path
  | .broke fault => "panicked: " ++ fault.text
  | .producerSilent => "producer exited without reporting"
  | .recordsDisagree read written =>
      s!"collector read {read} records but the producer wrote {written}"
  | .stallTooShort milliseconds gap throughput =>
      s!"stall_timeout_ms ({milliseconds} ms) must exceed the pacing interval (" ++
        Text.duration gap ++ s!" at {throughput} records/s)"
  | .settings text => text
  | .injected text => text

/-- A reason with the circumstances in which it came up, the outermost first. -/
structure Failure where
  circumstances : List Circumstance
  cause : Cause
  deriving DecidableEq, Repr

namespace Failure

def of (cause : Cause) : Failure := ⟨[], cause⟩

/-- The failure seen from one circumstance further out. -/
def within (circumstance : Circumstance) (failure : Failure) : Failure :=
  ⟨circumstance :: failure.circumstances, failure.cause⟩

def texts (failure : Failure) : List String :=
  failure.circumstances.map Circumstance.text ++ [failure.cause.text]

def outer (failure : Failure) : String :=
  match failure.circumstances with
  | [] => failure.cause.text
  | circumstance :: _ => circumstance.text

def text (failure : Failure) : String := ": ".intercalate failure.texts

end Failure

/-- How an operation ends when it does not succeed. -/
inductive Problem where
  | failed (failure : Failure)
  | broken (fault : Fault)
  deriving DecidableEq, Repr

namespace Problem

def of (cause : Cause) : Problem := .failed (.of cause)

/-- A fault has no circumstances: it passes through unchanged. -/
def within (circumstance : Circumstance) : Problem → Problem
  | .failed failure => .failed (failure.within circumstance)
  | .broken fault => .broken fault

def text : Problem → String
  | .failed failure => failure.text
  | .broken fault => fault.text

/-- The failure a supervisor sees: that of a worker that broke tells the fault. -/
def reported : Problem → Failure
  | .failed failure => failure
  | .broken fault => .of (.broke fault)

end Problem

end GatedPipeline
