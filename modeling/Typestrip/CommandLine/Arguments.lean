import Typestrip.Decimal.Reader
import Typestrip.Json.Number

/-!
# Arguments

The words after the name of the program: source files, options that take a value and flags. An option
is called by its long name after two dashes or by its letter after one; letters may be put together.
A value follows as the next word, or after an equals sign, or right after the letter. After two dashes
that stand alone all words are source files.

Values are kept pending and looked at only when something else begins, so that the first fault in the
order of the words is the one that is reported.
-/

namespace Typestrip.CommandLine

/-- What the words say. -/
structure Arguments where
  /-- Source files. Without any the standard input is read. -/
  files : List String := []
  /-- The number of workers. -/
  jobs : Option Nat := none
  /-- A settings file. -/
  config : Option String := none
  /-- The directory for outputs. -/
  outDir : Option String := none
  /-- Whether only diagnostics are wanted. -/
  check : Bool := false
  /-- Whether matches shall not be remembered. -/
  noMemo : Bool := false
  deriving DecidableEq, Repr

/-- Why the words cannot be used, or what they ask for instead of a run. -/
inductive UsageError where
  | unknownArgument
  /-- A value is missing or empty. -/
  | invalidValue
  /-- A value is no number. -/
  | valueValidation
  /-- Something is said twice that may be said once. -/
  | argumentConflict
  /-- A flag is given a value. -/
  | tooManyValues
  | displayHelp
  | displayVersion
  deriving DecidableEq, Repr

/-- Options that take a value. -/
inductive ValueOption where
  | jobs
  | config
  | outDir
  deriving DecidableEq, Repr

/-- Options without a value. -/
inductive Flag where
  | check
  | noMemo
  | help
  | version
  deriving DecidableEq, Repr

/-- All options. -/
inductive Switch where
  | value (o : ValueOption)
  | flag (f : Flag)
  deriving DecidableEq, Repr

/-- The option with a long name. -/
def Switch.ofName? (name : String) : Option Switch :=
  [("jobs", value .jobs), ("config", value .config), ("out-dir", value .outDir),
    ("check", flag .check), ("no-memo", flag .noMemo), ("help", flag .help),
    ("version", flag .version)].lookup name

/-- The option with a letter. -/
def Switch.ofLetter? (c : Char) : Option Switch :=
  [('j', value .jobs), ('c', value .config), ('o', value .outDir), ('h', flag .help),
    ('V', flag .version)].lookup c

/-- The unsigned number of 64 bits that a word spells: digits, possibly after a plus sign. -/
def readCount? (cs : List Char) : Option Nat :=
  let digits := match cs with
    | '+' :: rest => rest
    | _ => cs
  match Decimal.takeDigits digits with
  | ([], _) => none
  | (digits, []) =>
    let n := Decimal.digitsValue 0 digits
    if n ≤ Json.maxUnsigned then some n else none
  | _ => none

namespace Arguments

/-- A path has to be given by at least one character. -/
def requirePath (word : String) : Except UsageError String :=
  if word.isEmpty then .error .invalidValue else .ok word

/-- Adds source files. -/
def addFiles (a : Arguments) (words : List String) : Except UsageError Arguments := do
  return { a with files := a.files ++ (← words.mapM requirePath) }

/-- Sets an option, which must not be set already. -/
def setOption (a : Arguments) (o : ValueOption) (word : String) : Except UsageError Arguments :=
  match o with
  | .jobs =>
    if a.jobs.isSome then .error .argumentConflict
    else
      match readCount? word.toList with
      | some n => .ok { a with jobs := some n }
      | none => .error .valueValidation
  | .config =>
    if a.config.isSome then .error .argumentConflict
    else (requirePath word).map fun p => { a with config := some p }
  | .outDir =>
    if a.outDir.isSome then .error .argumentConflict
    else (requirePath word).map fun p => { a with outDir := some p }

/-- Sets a flag, which must not be set already. -/
def setFlag (a : Arguments) : Flag → Except UsageError Arguments
  | .check => if a.check then .error .argumentConflict else .ok { a with check := true }
  | .noMemo => if a.noMemo then .error .argumentConflict else .ok { a with noMemo := true }
  | .help => .error .displayHelp
  | .version => .error .displayVersion

end Arguments

/-- Words that have been read and not been looked at. -/
inductive PendingWords where
  | none
  | files (words : List String)
  /-- An option whose value is still to come. -/
  | awaiting (o : ValueOption)
  | given (o : ValueOption) (word : String)

/-- What has been read of the words. -/
structure Reading where
  arguments : Arguments := {}
  pending : PendingWords := .none

namespace Reading

/-- Looks at the pending words. -/
def finish (r : Reading) : Except UsageError Arguments :=
  match r.pending with
  | .none => .ok r.arguments
  | .files words => r.arguments.addFiles words
  | .awaiting _ => .error .invalidValue
  | .given o word => r.arguments.setOption o word

/-- Reads a source file. -/
def readFile (r : Reading) (word : String) : Except UsageError Reading :=
  match r.pending with
  | .files words => .ok { r with pending := .files (words ++ [word]) }
  | _ => do return ⟨← r.finish, .files [word]⟩

/-- Reads an option that takes a value, with its value if that belongs to the same word. -/
def readOption (r : Reading) (o : ValueOption) (value : Option (List Char)) :
    Except UsageError Reading := do
  let a ← r.finish
  match value with
  | some v => return ⟨← a.setOption o (String.ofList v), .none⟩
  | none => return ⟨a, .awaiting o⟩

/-- Reads a flag. -/
def readFlag (r : Reading) (f : Flag) : Except UsageError Reading := do
  return ⟨← (← r.finish).setFlag f, .none⟩

/-- Reads a word after its two dashes. -/
def readLong (r : Reading) (cs : List Char) : Except UsageError Reading :=
  let value := match cs.dropWhile (· ≠ '=') with
    | _ :: v => some v
    | [] => none
  match Switch.ofName? (String.ofList (cs.takeWhile (· ≠ '='))) with
  | none => .error .unknownArgument
  | some (.value o) => r.readOption o value
  | some (.flag f) => if value.isSome then .error .tooManyValues else r.readFlag f

/-- Reads a word after its dash. -/
def readLetters (r : Reading) : List Char → Except UsageError Reading
  | [] => .ok r
  | c :: cs =>
    match Switch.ofLetter? c with
    | none => .error .unknownArgument
    | some (.flag f) => do readLetters (← r.readFlag f) cs
    | some (.value o) =>
      match cs with
      | [] => r.readOption o none
      | '=' :: v => r.readOption o (some v)
      | v => r.readOption o (some v)

/-- Reads a word before the two dashes that stand alone. -/
def readWord (r : Reading) (word : String) : Except UsageError Reading :=
  match word.toList with
  | '-' :: '-' :: cs => r.readLong cs
  | '-' :: c :: cs => r.readLetters (c :: cs)
  | _ =>
    match r.pending with
    | .awaiting o => .ok { r with pending := .given o word }
    | _ => r.readFile word

/-- Reads all words. `onlyFiles` tells that two dashes stood alone. -/
def readAll (r : Reading) (onlyFiles : Bool) : List String → Except UsageError Arguments
  | [] => r.finish
  | word :: rest =>
    if onlyFiles then do readAll (← r.readFile word) true rest
    else if word = "--" then readAll r true rest
    else do readAll (← r.readWord word) false rest

end Reading

/-- What the words after the name of the program say. -/
def Arguments.ofWords (words : List String) : Except UsageError Arguments :=
  Reading.readAll {} false words

end Typestrip.CommandLine
