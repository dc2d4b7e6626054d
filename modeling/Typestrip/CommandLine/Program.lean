import Typestrip.CommandLine.Arguments
import Typestrip.CommandLine.Runner

/-!
# The program

`Program.run` is the whole program on any system: it reads its arguments, its settings and its sources,
reports what is wrong with them, and writes the outputs. Its result is the exit code: 0 if every
source was accepted, 1 if not or if something failed, 2 if the arguments cannot be used.
-/

namespace Typestrip.CommandLine

open Files TypeScript

/-- Reads a settings file. -/
def settingsOfFile {m : Type → Type} [Monad m] (sys : System m) (path : String) :
    m (Except SetupError Settings) := do
  match ← sys.readText path with
  | .error e => return .error (.unreadable e)
  | .ok text =>
    match Settings.ofText? text.toList with
    | some s => return .ok s
    | none => return .error .malformed

namespace Arguments

/-- The settings with what the arguments say instead. -/
def override (a : Arguments) (s : Settings) : Settings :=
  { s with
    poolSize := a.jobs.orElse fun _ => s.poolSize
    memoize := s.memoize && !a.noMemo }

/-- The settings of a run. -/
def settings {m : Type → Type} [Monad m] (a : Arguments) (sys : System m) :
    m (Except RunError Settings) := do
  match a.config with
  | none => return .ok (a.override {})
  | some path =>
    match ← settingsOfFile sys path with
    | .ok s => return .ok (a.override s)
    | .error e => return .error (.setup e)

end Arguments

namespace Program

/-- The name of the program with its version. -/
def version : String := "tsl 0.1.0\n"

/-- What the program does and how it is called. -/
def help : String :=
  "Strip TypeScript types and emit JavaScript\n\n" ++
  "Usage: tsl [OPTIONS] [FILES]...\n\n" ++
  "Arguments:\n" ++
  "  [FILES]...  Source files to transform. Reads standard input when none are given\n\n" ++
  "Options:\n" ++
  "  -j, --jobs <JOBS>        Number of worker contexts for batch compilation\n" ++
  "  -c, --config <CONFIG>    JSON configuration file\n" ++
  "  -o, --out-dir <OUT_DIR>  Directory to write `<stem>.js` files into, instead of standard output\n" ++
  "      --check              Only report diagnostics; write no output\n" ++
  "      --no-memo            Disable the packrat cache\n" ++
  "  -h, --help               Print help\n" ++
  "  -V, --version            Print version\n"

/-- What the arguments ask for instead of a run. -/
def usageAnswer? : UsageError → Option String
  | .displayHelp => some help
  | .displayVersion => some version
  | _ => none

/-- What is wrong with the arguments. -/
def usageMessage : UsageError → String
  | .unknownArgument => "error: unexpected argument\n"
  | .invalidValue => "error: a value is required\n"
  | .valueValidation => "error: invalid value\n"
  | .argumentConflict => "error: an argument cannot be used multiple times\n"
  | .tooManyValues => "error: unexpected value\n"
  | .displayHelp | .displayVersion => ""

variable {m : Type → Type} [Monad m]

/-- Transforms what the arguments name, or the input. -/
def transform (sys : System m) (a : Arguments) (r : Runner) : m (Except RunError Report) :=
  if a.files.isEmpty then do
    match ← sys.readInputText with
    | .ok source => return r.runSource inputName source
    | .error e => return .error (.stream e)
  else r.runFiles sys a.files

/-- Writes a message for each diagnostic. -/
def reportAll (sys : System m) : List (String × Source.Diagnostic) → m PUnit
  | [] => return ⟨⟩
  | (name, d) :: rest => do
    sys.report (name ++ ": " ++ d.text ++ "\n")
    reportAll sys rest

/-- Runs the program with given arguments. The result tells whether every source was accepted. -/
def runWith (sys : System m) (a : Arguments) : m (Except RunError Bool) := do
  match ← a.settings sys with
  | .error e => return .error e
  | .ok settings =>
    let runner : Runner := { settings, outDir := a.outDir, check := a.check }
    match ← transform sys a runner with
    | .error e => return .error e
    | .ok report =>
      reportAll sys report.failures
      return (← runner.emit sys report).map fun _ => report.isSuccess

/-- Runs the program. The result is its exit code. -/
def run (sys : System m) (words : List String) : m UInt32 := do
  match Arguments.ofWords words with
  | .error e =>
    match usageAnswer? e with
    | some answer =>
      let _ ← sys.print answer
      return 0
    | none =>
      sys.report (usageMessage e)
      return 2
  | .ok a =>
    match ← runWith sys a with
    | .ok accepted => return if accepted then 0 else 1
    | .error e =>
      sys.report ("Error: " ++ e.message ++ "\n")
      return 1

end Program

end Typestrip.CommandLine
