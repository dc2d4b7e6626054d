import Typestrip.CommandLine.System
import Typestrip.TypeScript.Batch

/-!
# Runs

A runner reads sources, transforms them and writes their outputs: to the output of the system, or to
files in a directory. Several sources go through a pool of workers if there is more than one.

Nothing is written if two outputs belong into the same file. `Report.clash?` looks for such a pair
before `Runner.emit` begins to write.
-/

namespace Typestrip.CommandLine

open Files TypeScript

/-- What ends a run. -/
inductive RunError where
  | read (path : String) (cause : IoError)
  | write (path : String) (cause : IoError)
  /-- Two units would be written to the same file. -/
  | outputClash (path first second : String)
  | setup (cause : SetupError)
  /-- The input or the output failed. -/
  | stream (cause : IoError)
  deriving DecidableEq, Repr

/-- The message for a run error. -/
def RunError.message : RunError → String
  | read path cause => "could not read '" ++ path ++ "': " ++ cause.message
  | write path cause => "could not write '" ++ path ++ "': " ++ cause.message
  | outputClash path first second =>
    "'" ++ first ++ "' and '" ++ second ++ "' both write '" ++ path ++ "'"
  | setup cause => cause.message
  | stream cause => "I/O error: " ++ cause.message

/-- The outputs of a run with the names of their units, in the order of the units. -/
structure Report where
  outputs : List (String × Output) := []
  deriving DecidableEq, Repr

namespace Report

/-- The diagnostics with the names of their units. -/
def failures (r : Report) : List (String × Source.Diagnostic) :=
  r.outputs.filterMap fun (name, o) => o.diagnostic.map (name, ·)

/-- The number of units that failed. -/
def failed (r : Report) : Nat := r.outputs.countP (·.2.error)

/-- Whether no unit failed. -/
def isSuccess (r : Report) : Bool := r.failed = 0

/-- The units that have JavaScript, with it. -/
def codes (r : Report) : List (String × String) :=
  r.outputs.filterMap fun (name, o) => o.code.map (name, ·)

end Report

/-- The name of the unit that is read from the input. -/
def inputName : String := "<stdin>"

/-- How to run. -/
structure Runner where
  settings : Settings
  /-- The directory for outputs. Without one they go to the output of the system. -/
  outDir : Option String := none
  /-- Whether only diagnostics are wanted. -/
  check : Bool := false

namespace Runner

/-- Transforms units. -/
def transformUnits (r : Runner) (units : List SourceUnit) : Except RunError Report := do
  let poolSize := r.settings.poolSize.getD 1
  let outputs ←
    if 1 < units.length ∧ 1 < poolSize then
      match Batch.start (r.settings.withPoolSize (min poolSize units.length)) with
      | .ok batch => pure (batch.compile units).1
      | .error e => throw (.setup e)
    else
      match Transpiler.ofSettings r.settings with
      | .ok t => pure (units.map fun u => t.transform u.source.toList)
      | .error e => throw (.setup (.grammar e))
  return ⟨(units.map (·.name)).zip outputs⟩

/-- Transforms a single source. -/
def runSource (r : Runner) (name source : String) : Except RunError Report :=
  r.transformUnits [⟨name, source⟩]

/-- The file for the output of a unit. Without one the output goes to the output of the system. -/
def outputPath? (r : Runner) (name : String) : Option String := do
  let dir ← r.outDir
  if name = inputName then none else some (Path.join dir ((← Path.stem? name) ++ ".js"))

/-- The first unit whose file belongs to a unit before it, as an error. `claimed` are the files of the
units before, with their units. -/
def clash? (r : Runner) (claimed : List (String × String)) : List (String × String) → Option RunError
  | [] => none
  | (name, _) :: rest =>
    match r.outputPath? name with
    | none => clash? r claimed rest
    | some path =>
      match claimed.lookup path with
      | some first => some (.outputClash path first name)
      | none => clash? r ((path, name) :: claimed) rest

variable {m : Type → Type} [Monad m]

/-- Reads source files up to the first that cannot be read. -/
def readUnits (sys : System m) : List String → m (Except RunError (List SourceUnit))
  | [] => return .ok []
  | path :: rest => do
    match ← sys.readText path with
    | .error e => return .error (.read path e)
    | .ok source => return (← readUnits sys rest).map (⟨path, source⟩ :: ·)

/-- Transforms source files. -/
def runFiles (r : Runner) (sys : System m) (paths : List String) : m (Except RunError Report) := do
  return (← readUnits sys paths) >>= r.transformUnits

/-- Writes a file, with the directories above it. -/
def writeFile (sys : System m) (path code : String) : m (Except RunError PUnit) := do
  let made ← match Path.parent? path with
    | some parent => sys.createDirectories parent
    | none => pure (.ok ⟨⟩)
  match made with
  | .error e => return .error (.write path e)
  | .ok _ => return (← sys.writeFile path code).mapError (.write path)

/-- Writes the outputs of units one after the other. -/
def emitCodes (r : Runner) (sys : System m) : List (String × String) → m (Except RunError PUnit)
  | [] => return .ok ⟨⟩
  | (name, code) :: rest => do
    let written ← match r.outputPath? name with
      | some path => writeFile sys path code
      | none => do pure ((← sys.print code).mapError .stream)
    match written with
    | .error e => return .error e
    | .ok _ => emitCodes r sys rest

/-- Writes the outputs of a run, unless only diagnostics are wanted or two outputs clash. -/
def emit (r : Runner) (sys : System m) (report : Report) : m (Except RunError PUnit) :=
  if r.check then return .ok ⟨⟩
  else
    match r.clash? [] report.codes with
    | some e => return .error e
    | none => r.emitCodes sys report.codes

end Runner

end Typestrip.CommandLine
