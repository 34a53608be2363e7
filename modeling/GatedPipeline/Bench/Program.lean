import GatedPipeline.Bench.Options
import GatedPipeline.Bench.Session

/-!
The program: reads the command line, does what it asks for through a host, and answers the exit
code. A usage error is 2, a failure 1, a fault 101.
-/

namespace GatedPipeline.Bench.Program

/-- The lines that tell a failure: the outermost text first, then what it was caused by. -/
def complaint (failure : Failure) : List String :=
  match failure.texts with
  | [] => []
  | [outer] => ["Error: " ++ outer]
  | [outer, cause] => ["Error: " ++ outer, "", "Caused by:", "    " ++ cause]
  | outer :: causes =>
      ["Error: " ++ outer, "", "Caused by:"] ++
        causes.zipIdx.map fun entry => "    " ++ toString entry.2 ++ ": " ++ entry.1

def noteAll {m : Type → Type} [Monad m] (host : Host m) : List String → m Unit
  | [] => pure ()
  | line :: rest => do host.note line; noteAll host rest

/-- What the program does for a request, given how settings are loaded. -/
def serve {m : Type → Type} [Monad m] (host : Host m) (color : Bool) (temporary : String)
    (load : String → m (Except Failure Settings)) (request : Request) : m (Except Problem Unit) :=
  match request with
  | .version => do host.print Options.versionLine; return .ok ()
  | .help page => do Session.printAll host (Options.page page); return .ok ()
  | .init => do Session.printAll host (Settings.sample temporary).lines; return .ok ()
  | .run path overrides => do
      match ← load path with
      | .error failure => return .error (.failed failure)
      | .ok settings => (Session.run host color (overrides.apply settings) overrides.report).run

def answer {m : Type → Type} [Monad m] (host : Host m) (color : Bool) (temporary : String)
    (load : String → m (Except Failure Settings)) (words : List String) : m Nat := do
  match Options.parse words with
  | .error misuse =>
      host.note ("error: " ++ misuse.text)
      return 2
  | .ok request =>
      match ← serve host color temporary load request with
      | .ok () => return 0
      | .error (.failed failure) =>
          noteAll host (complaint failure)
          return 1
      | .error (.broken fault) =>
          host.note fault.text
          return 101

end GatedPipeline.Bench.Program
