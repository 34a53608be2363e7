import GatedPipeline.Bench.Settings

/-!
The command line. An option takes its value from the same word, behind an equals sign, or from the
next one; a word that starts with a dash is no value unless it is the dash alone. Nothing is given
twice.
-/

namespace GatedPipeline.Bench

structure Overrides where
  stages : Option Nat
  throughput : Option Nat
  unpaced : Bool
  count : Option Nat
  outputDirectory : Option String
  noWarmup : Bool
  report : Option String
  deriving DecidableEq, Repr

namespace Overrides

def none : Overrides := ⟨.none, .none, false, .none, .none, false, .none⟩

def apply (overrides : Overrides) (settings : Settings) : Settings :=
  { settings with
    stages := overrides.stages.getD settings.stages
    throughput := overrides.throughput.getD settings.throughput
    count := overrides.count.getD settings.count
    outputDirectory := overrides.outputDirectory.getD settings.outputDirectory
    unpaced := settings.unpaced || overrides.unpaced
    warmup := settings.warmup && !overrides.noWarmup }

end Overrides

inductive Page where
  | program
  | run
  | init
  | help
  deriving DecidableEq, Repr

inductive Request where
  | run (settingsPath : String) (overrides : Overrides)
  | init
  | help (page : Page)
  | version
  deriving DecidableEq, Repr

inductive Misuse where
  | noCommand
  | unexpected (word : String)
  | missingValue (option : String)
  | badValue (option value : String)
  | repeated (option : String)
  deriving DecidableEq, Repr

def Misuse.text : Misuse → String
  | .noCommand => "a command is required: run, init or help"
  | .unexpected word => "unexpected argument '" ++ word ++ "'"
  | .missingValue option => "a value is required for '" ++ option ++ "'"
  | .badValue option value => "invalid value '" ++ value ++ "' for '" ++ option ++ "'"
  | .repeated option => "the argument '" ++ option ++ "' cannot be used multiple times"

namespace Options

/-- The settings file that is read if no other is named. -/
def defaultPath : String := "relay.toml"

/-- A whole number below `2 ^ 64`, perhaps with a plus in front. -/
def wholeNumber (text : String) : Option Nat :=
  let digits := match text.toList with
    | '+' :: rest => rest
    | all => all
  if digits.isEmpty || !digits.all Toml.Number.isDigit then none
  else
    let value := Toml.Number.valueOf 10 digits
    if value < wordLimit then some value else none

/-- Whether a word can be the value of the option in front of it. -/
def isValue (word : String) : Bool := word = "-" || !word.startsWith "-"

/-- The value of an option, inside its word or in the next, and the words that remain. -/
def valueFor (option : String) (inside : Option String) (rest : List String) :
    Except Misuse (String × List String) :=
  match inside, rest with
  | some value, rest => .ok (value, rest)
  | none, next :: rest => if isValue next then .ok (next, rest) else .error (.missingValue option)
  | none, [] => .error (.missingValue option)

def numberFor (option value : String) : Except Misuse Nat :=
  match wholeNumber value with
  | some n => .ok n
  | none => .error (.badValue option value)

def pathFor (option value : String) : Except Misuse String :=
  if value.isEmpty then .error (.badValue option value) else .ok value

/-- A word of the form `name=value`, taken apart. -/
def split (word : String) : String × Option String :=
  match word.splitOn "=" with
  | [] => (word, none)
  | [_] => (word, none)
  | name :: rest => (name, some ("=".intercalate rest))

def once {α : Type} (option : String) (before : Option α) : Except Misuse Unit :=
  if before.isSome then .error (.repeated option) else .ok ()

/-- A switch: it has no value and is given once. -/
def switch (option : String) (inside : Option String) (before : Bool) : Except Misuse Unit :=
  if inside.isSome then .error (.unexpected option)
  else if before then .error (.repeated option)
  else .ok ()

/-- The options of a run; every step takes a word at least. -/
def runOptions (settingsPath : String) : Nat → Overrides → List String → Except Misuse Request
  | 0, overrides, _ => .ok (.run settingsPath overrides)
  | _ + 1, overrides, [] => .ok (.run settingsPath overrides)
  | fuel + 1, overrides, word :: rest => do
      let (name, inside) := split word
      match name with
      | "--" =>
          match inside, rest with
          | none, [] => return .run settingsPath overrides
          | none, next :: _ => throw (.unexpected next)
          | some _, _ => throw (.unexpected word)
      | "--stages" =>
          let (value, rest) ← valueFor name inside rest
          let n ← numberFor name value
          once name overrides.stages
          runOptions settingsPath fuel { overrides with stages := some n } rest
      | "--throughput" =>
          let (value, rest) ← valueFor name inside rest
          let n ← numberFor name value
          once name overrides.throughput
          runOptions settingsPath fuel { overrides with throughput := some n } rest
      | "--count" =>
          let (value, rest) ← valueFor name inside rest
          let n ← numberFor name value
          once name overrides.count
          runOptions settingsPath fuel { overrides with count := some n } rest
      | "--output-dir" =>
          let (value, rest) ← valueFor name inside rest
          once name overrides.outputDirectory
          runOptions settingsPath fuel { overrides with outputDirectory := some value } rest
      | "--report" =>
          let (value, rest) ← valueFor name inside rest
          let path ← pathFor name value
          once name overrides.report
          runOptions settingsPath fuel { overrides with report := some path } rest
      | "--unpaced" =>
          switch name inside overrides.unpaced
          runOptions settingsPath fuel { overrides with unpaced := true } rest
      | "--no-warmup" =>
          switch name inside overrides.noWarmup
          runOptions settingsPath fuel { overrides with noWarmup := true } rest
      | "--help" => if inside.isSome then throw (.unexpected word) else return .help .run
      | _ => if word.startsWith "-h" then return .help .run else throw (.unexpected word)

def initOptions : List String → Except Misuse Request
  | [] | ["--"] => .ok .init
  | word :: _ =>
      if word = "--help" || word.startsWith "-h" then .ok (.help .init)
      else .error (.unexpected word)

def helpOptions : List String → Except Misuse Request
  | [] => .ok (.help .program)
  | ["run"] => .ok (.help .run)
  | ["init"] => .ok (.help .init)
  | ["help"] => .ok (.help .help)
  | word :: _ => .error (.unexpected word)

/-- A short option with what is left of its word: `-c` and its value, `-h` or `-V`. -/
inductive Short where
  | settings (inside : Option String)
  | help
  | version
  | other

def short (word : String) : Short :=
  match word.toList with
  | '-' :: 'c' :: '=' :: rest => .settings (some (String.ofList rest))
  | ['-', 'c'] => .settings none
  | '-' :: 'c' :: rest => .settings (some (String.ofList rest))
  | '-' :: 'h' :: _ => .help
  | '-' :: 'V' :: _ => .version
  | _ => .other

/-- The words in front of the command, and the command; every step takes a word at least. -/
def command : Nat → Option String → List String → Except Misuse Request
  | 0, _, _ => .error .noCommand
  | _ + 1, _, [] => .error .noCommand
  | fuel + 1, path, word :: rest => do
      let (name, inside) := split word
      let settings (inside : Option String) : Except Misuse Request := do
        let (value, rest) ← valueFor "--config" inside rest
        let value ← pathFor "--config" value
        once "--config" path
        command fuel (some value) rest
      match name with
      | "run" =>
          if inside.isSome then throw (.unexpected word)
          else runOptions (path.getD defaultPath) (rest.length + 1) .none rest
      | "init" => if inside.isSome then throw (.unexpected word) else initOptions rest
      | "help" => if inside.isSome then throw (.unexpected word) else helpOptions rest
      | "--config" => settings inside
      | "--help" => if inside.isSome then throw (.unexpected word) else return .help .program
      | "--version" => if inside.isSome then throw (.unexpected word) else return .version
      | _ =>
          match short word with
          | .settings inside => settings inside
          | .help => return .help .program
          | .version => return .version
          | .other => throw (.unexpected word)

def parse (words : List String) : Except Misuse Request := command (words.length + 1) none words

/-! ### The manual -/

def versionLine : String := "relaybench 0.1.0"

def page : Page → List String
  | .program =>
      ["Staged relay pipeline latency benchmark",
        "",
        "Pushes fixed-size records through a chain of gated stages over a memory-mapped log and " ++
          "reports end-to-end latency percentiles.",
        "",
        "Usage: relaybench [OPTIONS] <COMMAND>",
        "",
        "Commands:",
        "  run   Run the benchmark and print a latency report",
        "  init  Print an example relay.toml to stdout",
        "  help  Print this message or the help of the given subcommand(s)",
        "",
        "Options:",
        "  -c, --config <CONFIG>  Path to relay.toml config file (defaults are used if it does " ++
          "not exist) [default: relay.toml]",
        "  -h, --help             Print help",
        "  -V, --version          Print version"]
  | .run =>
      ["Run the benchmark and print a latency report",
        "",
        "Usage: relaybench run [OPTIONS]",
        "",
        "Options:",
        "      --stages <STAGES>          Number of stages (overrides config)",
        "      --throughput <THROUGHPUT>  Producer rate in records/sec (overrides config)",
        "      --unpaced                  Produce as fast as possible, ignoring throughput",
        "      --count <COUNT>            Records in the measured run (overrides config)",
        "      --output-dir <OUTPUT_DIR>  Directory for the run's temporary storage (overrides " ++
          "config)",
        "      --no-warmup                Skip the warm-up pass",
        "      --report <REPORT>          Also write a JSON report to this file",
        "  -h, --help                     Print help"]
  | .init =>
      ["Print an example relay.toml to stdout",
        "",
        "Usage: relaybench init",
        "",
        "Options:",
        "  -h, --help  Print help"]
  | .help =>
      ["Print this message or the help of the given subcommand(s)",
        "",
        "Usage: relaybench help [COMMAND]..."]

end Options

end GatedPipeline.Bench
