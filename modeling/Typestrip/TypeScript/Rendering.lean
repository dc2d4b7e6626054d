import Typestrip.Text.Lines
import Typestrip.Value

/-!
# Rendering JavaScript

The reshaping functions of the grammar. Each takes the captured fields of a construct and gives its
JavaScript text. Types, and declarations that declare nothing but types, render as nothing.
-/

namespace Typestrip.TypeScript

/-- A field of a value, `null` if it is missing. -/
def field (name : String) (v : Value) : Value := (v.field? name).getD .null

/-- The text of a field, empty if the field is missing. -/
def fieldText (name : String) (v : Value) : String :=
  match v.field? name with
  | some f => f.flatten
  | none => ""

/-- A field of a field. -/
def inner? (outer name : String) (v : Value) : Option Value :=
  (v.field? outer).bind (·.field? name)

/-- Renders as nothing. -/
def erase (_ : Value) : Value := .text ""

/-- What a line after a break begins with. -/
def continuation : List Char := ['\n', ' ', ' ']

/-- The lines after a break, each at the continuation indent. Blank lines are left out, but the last
line stays even if it is blank. -/
def reindentLines : List (List Char) → List Char
  | [] => []
  | [last] => continuation ++ Text.trim last
  | line :: rest =>
    let line := Text.trim line
    (if line.isEmpty then [] else continuation ++ line) ++ reindentLines rest

/-- Puts every line after a break at a continuation indent of two spaces. -/
def reindent (v : Value) : Value :=
  let raw := v.flatten
  match Text.splitLines raw.toList with
  | (_, []) => .text raw
  | (first, rest) => .text (String.ofList (Text.trimEnd first ++ reindentLines rest))

/-- The text of a value without blanks at its end. -/
def trimmed (v : Value) : Value := .text (String.ofList (Text.trimEnd v.flatten.toList))

/-- A run of pieces: a first one and the list of the others. -/
def renderRun (v : Value) : Value := .text (fieldText "head" v ++ fieldText "tail" v)

/-- A piece of an expression with what it is applied to. -/
def renderJoined (v : Value) : Value := .text (fieldText "lead" v ++ fieldText "rest" v)

/-- A parameter with its default value. -/
def renderParam (v : Value) : Value :=
  match inner? "default" "value" v with
  | some default =>
    .text (fieldText "name" v ++ " = " ++ String.ofList (Text.trimEnd default.flatten.toList))
  | none => .text (fieldText "name" v)

/-- A list of parameters. -/
def renderParams (v : Value) : Value :=
  let rest := (((v.field? "rest").bind Value.list?).getD []).map Value.flatten
  .text (", ".intercalate (fieldText "first" v :: rest))

/-- The parameters and the arrow of an arrow function. -/
def renderArrowHead (v : Value) : Value := .text ("(" ++ fieldText "params" v ++ ") =>")

/-- A function declaration. -/
def renderFunction (v : Value) : Value :=
  let star := if (v.field? "star").any (!·.isNull) then "*" else ""
  let name := fieldText "name" v
  let name := if name.isEmpty then name else " " ++ name
  .text (Text.normalizeSpace (fieldText "head" v) ++ star ++ name ++ "(" ++ fieldText "params" v ++
    ") " ++ fieldText "body" v)

/-- A conditional statement. -/
def renderIf (v : Value) : Value :=
  let otherwise := match inner? "otherwise" "statement" v with
    | some s => " else " ++ s.flatten
    | none => ""
  .text ("if " ++ fieldText "test" v ++ " " ++ fieldText "then" v ++ otherwise)

/-- A loop. -/
def renderLoop (v : Value) : Value :=
  .text (fieldText "keyword" v ++ " " ++ fieldText "head" v ++ " " ++ fieldText "body" v)

/-- A variable declaration. -/
def renderVar (v : Value) : Value :=
  let init := match inner? "init" "value" v with
    | some value => " = " ++ value.flatten
    | none => ""
  .text (Text.normalizeSpace (fieldText "kind" v) ++ " " ++ fieldText "name" v ++ init ++ ";")

/-- A return statement. -/
def renderReturn (v : Value) : Value :=
  match inner? "argument" "value" v with
  | some value => .text ("return " ++ value.flatten ++ ";")
  | none => .text "return;"

/-- An expression that stands as a statement. -/
def renderExpression (v : Value) : Value := .text (fieldText "expression" v ++ ";")

/-- The texts of the statements of a body that are not empty. -/
def statementLines (v : Value) : List String :=
  ((((v.field? "body").bind Value.list?).getD []).map Value.flatten).filter (!·.isEmpty)

/-- Indents every line by two spaces, except lines inside a template literal. `open?` is the mark of
the string literal that has been opened, and `escaped` tells that the next character is escaped. -/
def indentFrom (open? : Option Char) (escaped : Bool) : List Char → List Char
  | [] => []
  | c :: cs =>
    c :: if escaped then indentFrom open? false cs
      else
        match open? with
        | none =>
          if c = '"' ∨ c = '\'' ∨ c = '`' then indentFrom (some c) false cs
          else if c = '\n' then ' ' :: ' ' :: indentFrom none false cs
          else indentFrom none false cs
        | some mark =>
          if c = '\\' then indentFrom open? true cs
          else if c = mark then indentFrom none false cs
          else if c = '\n' then
            if mark = '`' then indentFrom open? false cs
            else ' ' :: ' ' :: indentFrom none false cs
          else indentFrom open? false cs

/-- Indents the lines of a statement by two spaces. -/
def indent (code : String) : String :=
  String.ofList (' ' :: ' ' :: indentFrom none false code.toList)

/-- A block. -/
def renderBlock (v : Value) : Value :=
  let lines := statementLines v
  if lines.isEmpty then .text "\x7b\x7d"
  else .text ("\x7b\n" ++ "\n".intercalate (lines.map indent) ++ "\n\x7d")

/-- A whole program: a line for every statement. -/
def renderProgram (v : Value) : Value :=
  let lines := statementLines v
  if lines.isEmpty then .text "" else .text ("\n".intercalate lines ++ "\n")

end Typestrip.TypeScript
