import Typestrip.CommandLine.Program

/-!
# The executable

The operations of the operating system, and the program run on them.
-/

namespace Typestrip.CommandLine

open Files

/-- The code of the operating system for a path through something that is no directory. -/
def notDirectoryCode : UInt32 := 20

/-- The code of the operating system for a directory in the place of a file. -/
def isDirectoryCode : UInt32 := 21

/-- An error as the program knows it. -/
def ioErrorOf : IO.Error → IoError
  | .noFileOrDirectory _ _ _ => .notFound
  | .alreadyExists _ _ _ => .alreadyExists
  | .inappropriateType name code details =>
    if code = notDirectoryCode then .notDirectory
    else if code = isDirectoryCode then .isDirectory
    else .other (toString (IO.Error.inappropriateType name code details))
  | e => .other (toString e)

/-- Does something and catches its error. -/
def attempt {α : Type} (action : IO α) : IO (Except IoError α) := do
  match ← action.toBaseIO with
  | .ok x => return .ok x
  | .error e => return .error (ioErrorOf e)

/-- The bytes of a stream up to its end, after those of `found`. -/
partial def readAllBytes (stream : IO.FS.Stream) (found : ByteArray) : IO ByteArray := do
  let bytes ← stream.read 65536
  if bytes.isEmpty then return found else readAllBytes stream (found ++ bytes)

/-- The operating system. -/
def operatingSystem : System IO where
  readFile path := attempt do
    return (← IO.FS.readBinFile path).toList
  createDirectories path :=
    if path.isEmpty then return .ok ⟨⟩ else attempt (IO.FS.createDirAll path)
  writeFile path text := attempt (IO.FS.writeFile path text)
  readInput := attempt do
    return (← readAllBytes (← IO.getStdin) .empty).toList
  print text := attempt do
    let out ← IO.getStdout
    out.putStr text
    out.flush
  report text := do
    (← IO.getStderr).putStr text

end Typestrip.CommandLine

/-- Runs the program with the arguments of the process. -/
def main (words : List String) : IO UInt32 :=
  Typestrip.CommandLine.Program.run Typestrip.CommandLine.operatingSystem words
