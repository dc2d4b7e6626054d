import Typestrip.Files.Error
import Typestrip.Files.Path

/-!
# File stores

A file store is a tree of directories and files as a value, with a working directory from which paths
start that do not start at the root. Its operations fail as those of an operating system do:
`FileStore.walk` follows a path step by step, and every step needs a directory to start from.
-/

namespace Typestrip.Files

/-- What is at a place. -/
inductive Entry where
  | file (content : List UInt8)
  | directory
  deriving DecidableEq, Repr

/-- A place: the names on the way to it from the root. -/
abbrev Location := List String

/-- A tree of files, by places. The root is always a directory and is not listed. -/
structure FileStore where
  entries : List (Location × Entry)
  workingDirectory : Location

namespace FileStore

/-- What is at a place. -/
def find? (s : FileStore) (l : Location) : Option Entry :=
  if l.isEmpty then some .directory else s.entries.lookup l

/-- Puts an entry at a place. -/
def put (s : FileStore) (l : Location) (e : Entry) : FileStore :=
  { s with entries := (l, e) :: s.entries.filter (·.1 ≠ l) }

/-- The largest number of bytes of a name. -/
def maxName : Nat := 255

/-- The number of bytes that a path has to stay below. -/
def maxPath : Nat := 4096

/-- The place that the pieces of a path lead to from a place. All but the last have to lead to a
directory. -/
def walk (s : FileStore) (l : Location) : List String → Except IoError Location
  | [] => .ok l
  | piece :: rest =>
    match s.find? l with
    | none => .error .notFound
    | some (.file _) => .error .notDirectory
    | some .directory =>
      if piece = "" ∨ piece = "." then walk s l rest
      else if piece = ".." then walk s l.dropLast rest
      else if maxName < piece.utf8ByteSize then .error .nameTooLong
      else walk s (l ++ [piece]) rest

/-- The place that a path names. -/
def locate (s : FileStore) (path : String) : Except IoError Location :=
  if path.toList.contains '\x00' then .error .nullInPath
  else if path = "" then .error .notFound
  else if maxPath ≤ path.utf8ByteSize then .error .nameTooLong
  else walk s (if Path.isAbsolute path then [] else s.workingDirectory) (Path.pieces path)

/-- Reads a file. -/
def read (s : FileStore) (path : String) : Except IoError (List UInt8) := do
  match s.find? (← s.locate path) with
  | some (.file content) => .ok content
  | some .directory => .error .isDirectory
  | none => .error .notFound

/-- Writes a file, in place of the one that was there. -/
def write (s : FileStore) (path : String) (content : List UInt8) : Except IoError FileStore := do
  let l ← s.locate path
  match s.find? l with
  | some .directory => .error .isDirectory
  | _ => .ok (s.put l (.file content))

/-- Whether a path names a directory. -/
def isDirectory (s : FileStore) (path : String) : Bool :=
  match s.locate path with
  | .ok l => s.find? l = some .directory
  | .error _ => false

/-- Makes a directory where nothing is. -/
def makeDirectory (s : FileStore) (path : String) : Except IoError FileStore := do
  let l ← s.locate path
  match s.find? l with
  | some _ => .error .alreadyExists
  | none => .ok (s.put l .directory)

/-- Makes a directory unless there is one. -/
def ensureDirectory (s : FileStore) (path : String) : Except IoError FileStore :=
  match s.makeDirectory path with
  | .ok t => .ok t
  | .error e => if s.isDirectory path then .ok s else .error e

/-- Makes a directory and those above it as far as they are missing. The path is given by its steps
in reverse. -/
def makeAll (s : FileStore) : List Component → Except IoError FileStore
  | [] => .ok s
  | last :: before =>
    let path := Path.ofComponents (last :: before).reverse
    match s.ensureDirectory path with
    | .error .notFound => do (← makeAll s before).ensureDirectory path
    | result => result

/-- Makes a directory and those above it as far as they are missing. -/
def createDirectories (s : FileStore) (path : String) : Except IoError FileStore :=
  s.makeAll (Path.components path).reverse

/-- An empty working directory below the root. -/
def fresh (name : String) : FileStore := ⟨[([name], .directory)], [name]⟩

/-- The files below the working directory, by their paths from there. -/
def files (s : FileStore) : List (String × List UInt8) :=
  s.entries.filterMap fun (l, e) =>
    match e with
    | .file content =>
      if s.workingDirectory.isPrefixOf l then
        some ("/".intercalate (l.drop s.workingDirectory.length), content)
      else none
    | .directory => none

end FileStore

end Typestrip.Files
