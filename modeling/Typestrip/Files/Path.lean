import Typestrip.Text.Lines

/-!
# Paths

A path is a text in which slashes separate names. `components` is what a path says when repeated
slashes and dots that change nothing are left out. The functions after it take a path apart and put
one together without a look at any file.
-/

namespace Typestrip.Files

/-- A step along a path. -/
inductive Component where
  /-- To the root. It can only be the first step. -/
  | root
  /-- Nowhere, written as a dot. Only as the first step is it kept. -/
  | here
  /-- To the directory above, written as two dots. -/
  | up
  | name (s : String)
  deriving DecidableEq, Repr

/-- A step as it is written. -/
def Component.text : Component → String
  | root => ""
  | here => "."
  | up => ".."
  | name s => s

namespace Path

/-- The texts between the slashes of a path. -/
def pieces (path : String) : List String :=
  let (first, rest) := Text.split '/' path.toList
  (first :: rest).map String.ofList

/-- Whether a path begins at the root. -/
def isAbsolute (path : String) : Bool := path.toList.head? = some '/'

/-- The step that a piece stands for after the first one, if it stands for any. -/
def component? (piece : String) : Option Component :=
  if piece = "" ∨ piece = "." then none
  else if piece = ".." then some .up
  else some (.name piece)

/-- The steps of a path. -/
def components (path : String) : List Component :=
  match pieces path with
  | [] => []
  | first :: rest =>
    (if isAbsolute path then [.root] else if first = "." then [.here]
      else (component? first).toList) ++ rest.filterMap component?

/-- The path with the given steps. -/
def ofComponents : List Component → String
  | [.root] => "/"
  | steps => "/".intercalate (steps.map Component.text)

/-- The name that a path ends in. -/
def fileName? (path : String) : Option String :=
  match (components path).getLast? with
  | some (.name s) => some s
  | _ => none

/-- A name without its last extension. A dot at the beginning begins no extension. -/
def stemOf (name : String) : String :=
  match (name.toList.reverse.dropWhile (· ≠ '.')).drop 1 with
  | [] => name
  | before => String.ofList before.reverse

/-- The stem of the name that a path ends in. -/
def stem? (path : String) : Option String := (fileName? path).map stemOf

/-- The path of a name in a directory. -/
def join (directory name : String) : String :=
  if directory = "" then name
  else if directory.toList.getLast? = some '/' then directory ++ name
  else directory ++ "/" ++ name

/-- The path without its last step. The root, and the path without steps, have none. -/
def parent? (path : String) : Option String :=
  match (components path).getLast? with
  | none | some .root => none
  | _ => some (ofComponents (components path).dropLast)

end Path

end Typestrip.Files
