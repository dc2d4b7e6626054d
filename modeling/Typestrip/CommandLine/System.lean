import Typestrip.Files.Store
import Typestrip.Text.Utf8

/-!
# Systems

A system is what a program runs on: files, an input, an output, and an output for messages. Programs
are written for any system, given by its operations. `Session` is a system as a value.
-/

namespace Typestrip.CommandLine

open Files

/-- The operations of a system. -/
structure System (m : Type → Type) where
  /-- The bytes of a file. -/
  readFile : String → m (Except IoError (List UInt8))
  /-- Makes a directory with all above it that are missing. -/
  createDirectories : String → m (Except IoError PUnit)
  /-- Writes a file. -/
  writeFile : String → String → m (Except IoError PUnit)
  /-- All bytes of the input. -/
  readInput : m (Except IoError (List UInt8))
  /-- Writes to the output. -/
  print : String → m (Except IoError PUnit)
  /-- Writes a message. -/
  report : String → m PUnit

/-- The text that bytes spell. -/
def textOf (bytes : List UInt8) : Except IoError String :=
  match Utf8.decode bytes with
  | .ok cs => .ok (String.ofList cs)
  | .error _ => .error .notText

namespace System

variable {m : Type → Type} [Monad m]

/-- The text of a file. -/
def readText (sys : System m) (path : String) : m (Except IoError String) := do
  return (← sys.readFile path) >>= textOf

/-- The text of the input. -/
def readInputText (sys : System m) : m (Except IoError String) := do
  return (← sys.readInput) >>= textOf

end System

/-- Files, the bytes of the input, and what has been written to the outputs. -/
structure Session where
  files : FileStore
  input : List UInt8 := []
  output : String := ""
  messages : String := ""

namespace Session

/-- Changes the files, unless that fails. -/
def change (f : FileStore → Except IoError FileStore) : StateM Session (Except IoError PUnit) :=
  fun s =>
    match f s.files with
    | .ok files => (.ok ⟨⟩, { s with files })
    | .error e => (.error e, s)

/-- The system that a session is. -/
def system : System (StateM Session) where
  readFile path := fun s => (s.files.read path, s)
  createDirectories path := change (·.createDirectories path)
  writeFile path text := change (·.write path (Utf8.encode text))
  readInput := fun s => (.ok s.input, s)
  print text := fun s => (.ok ⟨⟩, { s with output := s.output ++ text })
  report text := fun s => (⟨⟩, { s with messages := s.messages ++ text })

end Session

end Typestrip.CommandLine
