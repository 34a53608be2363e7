import GatedPipeline.Run.Config
import GatedPipeline.Storage
import GatedPipeline.Toml.Document

/-!
The settings of a benchmark. Each has a default, so an empty file, or none, is a valid settings
file; keys that are no settings are passed over.
-/

namespace GatedPipeline.Bench

/-- The settings of a benchmark. The throughput is in records per second and does not matter if the
run is unpaced. Before the measured run of `count` records a `warmup` of `warmupCount` may run,
which is not reported. The period of the pretoucher is in microseconds, its patience and the stall
time in milliseconds, and the delays of the stages in nanoseconds. Without a stall time a wait may
last for ever. -/
structure Settings where
  stages : Nat
  throughput : Nat
  unpaced : Bool
  count : Nat
  outputDirectory : String
  warmup : Bool
  warmupCount : Nat
  progressEvery : Nat
  pretouchPeriod : Nat
  pretouchPatience : Nat
  stall : Option Nat
  delays : List Nat
  cores : List Nat
  deriving DecidableEq, Repr

namespace Settings

/-- The settings without a file, with the run's files below a directory for temporary ones. -/
def defaults (temporary : String) : Settings :=
  ⟨3, 100000, false, 1000000, Storage.join temporary "relaybench", true, 100000, 100000, 500, 1000,
    none, [], []⟩

def sample (temporary : String) : Settings := { defaults temporary with stall := some 30000 }

/-! ### Reading -/

def natural : Toml.Value → Option Nat
  | .integer value => if 0 ≤ value then some value.toNat else none
  | _ => none

def truth : Toml.Value → Option Bool
  | .boolean value => some value
  | _ => none

def text : Toml.Value → Option String
  | .string value => some value
  | _ => none

def naturals : Toml.Value → Option (List Nat)
  | .array items => items.mapM natural
  | _ => none

/-- The setting of a key, its default if the key is missing. -/
def setting {α : Type} (entries : List (String × Toml.Value)) (key : String) (absent : α)
    (read : Toml.Value → Option α) : Except Cause α :=
  match entries.lookup key with
  | none => .ok absent
  | some value =>
      match read value with
      | some answer => .ok answer
      | none => .error (.settings ("unsuitable value of " ++ key))

def ofTable (absent : Settings) (entries : List (String × Toml.Value)) : Except Cause Settings := do
  return {
    stages := ← setting entries "stages" absent.stages natural
    throughput := ← setting entries "throughput" absent.throughput natural
    unpaced := ← setting entries "unpaced" absent.unpaced truth
    count := ← setting entries "count" absent.count natural
    outputDirectory := ← setting entries "output_dir" absent.outputDirectory text
    warmup := ← setting entries "warmup" absent.warmup truth
    warmupCount := ← setting entries "warmup_count" absent.warmupCount natural
    progressEvery := ← setting entries "progress_every" absent.progressEvery natural
    pretouchPeriod := ← setting entries "pretouch_period_us" absent.pretouchPeriod natural
    pretouchPatience :=
      ← setting entries "pretouch_join_timeout_ms" absent.pretouchPatience natural
    stall := ← setting entries "stall_timeout_ms" absent.stall fun value => some <$> natural value
    delays := ← setting entries "stage_delay_ns" absent.delays naturals
    cores := ← setting entries "pin_cores" absent.cores naturals }

def ofText (absent : Settings) (source : String) : Except Cause Settings :=
  match Toml.read source with
  | .error complaint => .error (.settings complaint.text)
  | .ok entries => ofTable absent entries

def ofFile (absent : Settings) (path : String) (bytes : Except Storage.Refusal ByteArray) :
    Except Failure Settings :=
  match bytes with
  | .error refusal => .error ⟨[.readingSettings path], .storage refusal⟩
  | .ok bytes =>
      match String.fromUTF8? bytes with
      | none => .error ⟨[.readingSettings path], .storage .notText⟩
      | some source =>
          match ofText absent source with
          | .error cause => .error ⟨[.parsingSettings path], cause⟩
          | .ok settings => .ok settings

def load (storage : Storage) (temporary path : String) : Except Failure Settings :=
  ofFile (defaults temporary) path (storage.read path)

/-- The settings of a file, or the defaults if there is none. -/
def loadOrDefault (storage : Storage) (temporary path : String) : Except Failure Settings :=
  if storage.isThere path then load storage temporary path else .ok (defaults temporary)

/-! ### Runs -/

/-- Nanoseconds after which a wait fails the run. -/
def stallTime (settings : Settings) : Option Nat := settings.stall.map (· * 1000000)

/-- A run of so many records. Every wait lasts one interval at least, so a stall time that is no
longer would fail a healthy run. -/
def build (settings : Settings) (count : Nat) : Except Problem Run.Config := do
  let config : Run.Config :=
    ⟨settings.stages, count, if settings.unpaced then none else some settings.throughput,
      settings.outputDirectory, settings.progressEvery, settings.pretouchPeriod * 1000,
      settings.pretouchPatience * 1000000, settings.delays, settings.cores⟩
  config.validate.mapError Problem.failed
  match settings.stall with
  | none => return config
  | some milliseconds =>
      let interval ← orBroken config.interval
      if milliseconds * 1000000 ≤ interval then
        throw (.of (.stallTooShort milliseconds interval settings.throughput))
      return config

def runConfig (settings : Settings) : Except Problem Run.Config := settings.build settings.count

def warmupConfig (settings : Settings) : Except Problem Run.Config :=
  settings.build settings.warmupCount

/-! ### Writing -/

/-- A string as a settings file has it. -/
def written (s : String) : String :=
  if s.toList.all fun c => Toml.Scan.isCommentChar c && c ≠ '\t' && c ≠ '"' && c ≠ '\\' then
    "\"" ++ s ++ "\""
  else if s.toList.all fun c => Toml.Scan.isCommentChar c && c ≠ '\'' then "'" ++ s ++ "'"
  else "\"" ++ String.join (s.toList.map fun c =>
    if c = '"' then "\\\"" else if c = '\\' then "\\\\"
    else if Toml.Scan.isCommentChar c then c.toString
    else "\\u" ++ String.ofList (List.replicate (4 - (Nat.toDigits 16 c.toNat).length) '0' ++
      (Nat.toDigits 16 c.toNat))) ++ "\""

def writtenList (items : List Nat) : String :=
  "[" ++ ", ".intercalate (items.map fun n => toString n) ++ "]"

def lines (settings : Settings) : List String :=
  ["stages = " ++ toString settings.stages,
    "throughput = " ++ toString settings.throughput,
    "unpaced = " ++ toString settings.unpaced,
    "count = " ++ toString settings.count,
    "output_dir = " ++ written settings.outputDirectory,
    "warmup = " ++ toString settings.warmup,
    "warmup_count = " ++ toString settings.warmupCount,
    "progress_every = " ++ toString settings.progressEvery,
    "pretouch_period_us = " ++ toString settings.pretouchPeriod,
    "pretouch_join_timeout_ms = " ++ toString settings.pretouchPatience] ++
  (settings.stall.map fun n => "stall_timeout_ms = " ++ toString n).toList ++
  ["stage_delay_ns = " ++ writtenList settings.delays,
    "pin_cores = " ++ writtenList settings.cores]

end Settings

end GatedPipeline.Bench
