import Typestrip.Grammar.Builder
import Typestrip.TypeScript.Rendering

/-!
# A grammar for a part of TypeScript

The value of a match of `program` is the JavaScript that is left of a source when its types are taken
away. The grammar knows

- interfaces, type aliases, imports and exports of types and ambient declarations, which are erased;
- variable and function declarations, with annotations, optional parameters, defaults, rest
  parameters and type parameters;
- heads of arrow functions with annotated parameters;
- conditionals, loops, return statements, blocks and comments.

Everything else in an expression is kept as it is. Outside brackets a line break ends an expression
unless the line ends in an operator or the next one begins with one. An operator always carries the
operand that follows it, so that one without an operand is an error.

The parts of the grammar that several others use are kept in structures, so that each of them is one
node with one identity.
-/

namespace Typestrip.TypeScript

open Grammar Grammar.Build

/-! ## Words and punctuation -/

/-- The source of a pattern for string and template literals. -/
def stringSource : String :=
  "\"(?:[^\"\\\\\\n]|\\\\.)*\"|'(?:[^'\\\\\\n]|\\\\.)*'|`(?:[^`\\\\]|\\\\[\\s\\S])*`"

/-- The source of a pattern for the name of a type with its operators. -/
def typeNameSource : String :=
  "(?:(?:keyof|typeof|readonly|unique|infer)\\s+)*[A-Za-z_$][\\w$]*(?:\\.[A-Za-z_$][\\w$]*)*"

/-- The source of a pattern for characters of an expression that are no operators, brackets or
strings, and for increments and decrements. -/
def wordSource : String :=
  "(?:[^-+*%&|^<>=?:,.;\x7b\x7d()\\[\\]\"'`\\n/]|\\+\\+|--)+"

/-- The source of a pattern for regular expression literals. -/
def regexSource : String :=
  "/(?:[^/*\\\\\\n\\[;]|\\\\.|\\[(?:[^\\]\\\\\\n]|\\\\.)*\\])" ++
    "(?:[^/\\\\\\n\\[;]|\\\\.|\\[(?:[^\\]\\\\\\n]|\\\\.)*\\])*/[A-Za-z]*"

/-- Terminals used throughout the grammar. -/
structure Words where
  blanks : Node
  someBlanks : Node
  identifier : Node
  string : Node
  comment : Node
  terminator : Node

/-- Builds the common terminals. -/
def words : Build Words := do
  let blanks ← regex "\\s*"
  let someBlanks ← regex "\\s+"
  let identifier ← regex "[A-Za-z_$][A-Za-z0-9_$]*"
  let string ← regex stringSource
  let comment ← regex "//[^\\n]*|/\\*[\\s\\S]*?\\*/"
  let terminator ← nullable (← regex "[ \\t]*;")
  return { blanks, someBlanks, identifier, string, comment, terminator }

/-! ## Groups in brackets -/

/-- Balanced groups, kept as they are. -/
structure Groups where
  parens : Node
  braces : Node
  any : Node
  angles : Node

/-- Builds a rule for groups between two marks. -/
def delimited (w : Words) (chunk : Node) (name opening closing : String) : Build Node :=
  symbol name do
    let first ← literal opening
    let item ← choice [w.string, ← reference "group", chunk]
    let items ← repetition item
    sequence [first, items, ← literal closing]

/-- Builds the groups. -/
def groups (w : Words) : Build Groups := do
  let chunk ← regex "[^()\\[\\]\x7b\x7d\"'`]+"
  let parens ← delimited w chunk "parens" "(" ")"
  let brackets ← delimited w chunk "brackets" "[" "]"
  let braces ← delimited w chunk "braces" "\x7b" "\x7d"
  let any ← symbol "group" (choice [parens, brackets, braces])
  let angles ← symbol "angles" do
    let opening ← literal "<"
    let item ← choice [← regex "[^<>]+", ← reference "angles"]
    let items ← repetition item
    sequence [opening, items, ← literal ">"]
  return { parens, braces, any, angles }

/-! ## Types -/

/-- Types. -/
structure Types where
  any : Node
  /-- A type that is no function type, as it stands in front of an arrow. -/
  arrowReturn : Node
  /-- A colon with a type, or nothing. -/
  annotation : Node

/-- Builds a rule for unions and intersections of terms. -/
def union (w : Words) (name : String) (term : Node) : Build Node :=
  symbol name do
    let leading ← regex "(?:\\|\\s*)?"
    let operator ← regex "[|&]"
    let further ← sequence [w.blanks, operator, w.blanks, term]
    sequence [leading, term, ← repetition further]

/-- Builds the types. -/
def types (w : Words) (g : Groups) : Build Types := do
  let primary ← symbol "type_primary" do
    let number ← regex "-?[0-9]+(?:\\.[0-9]+)?"
    let name ← regex typeNameSource
    let arguments ← nullable (← sequence [w.blanks, g.angles])
    choice [g.any, w.string, number, ← sequence [name, arguments]]
  let arraySuffix ← regex "(?:\\s*\\[\\])*"
  let functionReturn ←
    nullable (← sequence [w.blanks, ← literal "=>", w.blanks, ← reference "type"])
  let any ← union w "type" (← sequence [primary, arraySuffix, functionReturn])
  let arrowReturn ← union w "arrow_return_type" (← sequence [primary, arraySuffix])
  let annotation ← nullable (← sequence [w.blanks, ← literal ":", w.blanks, any])
  return { any, arrowReturn, annotation }

/-! ## Parameters -/

/-- One or more of the given pieces, kept as they are. -/
def verbatimRun (pieces : List Node) : Build Node := do
  let piece ← choice pieces
  let head ← capture "head" piece
  let tail ← capture "tail" (← repetition piece)
  map renderRun (← sequence [head, tail])

/-- Builds the parameters of a function: a list of them, or nothing. -/
def parameters (w : Words) (g : Groups) (t : Types) : Build Node := do
  let default ← verbatimRun [w.string, g.any, ← regex "[^,;\x7b\x7d()\\[\\]\"'`\\n/]+"]
  let name ← choice [← regex "(?:\\.\\.\\.)?[A-Za-z_$][A-Za-z0-9_$]*", g.any]
  let optional ← nullable (← regex "\\s*\\?")
  let value ← sequence [w.blanks, ← literal "=", w.blanks, ← capture "value" default]
  let param ← map renderParam (← sequence [
    ← capture "name" name, optional, t.annotation, ← capture "default" (← nullable value)])
  let further ← map (field "param")
    (← sequence [w.blanks, ← literal ",", w.blanks, ← capture "param" param])
  let trailing ← nullable (← sequence [w.blanks, ← literal ","])
  let list ← sequence [
    ← capture "first" param, ← capture "rest" (← repetition further), trailing]
  nullable (← map renderParams list)

/-! ## Expressions -/

/-- Something that is applied to the operand after it. -/
def joined (lead rest : Node) : Build Node := do
  let lead ← capture "lead" (← map reindent lead)
  map renderJoined (← sequence [lead, ← capture "rest" rest])

/-- Builds the head of an arrow function. -/
def arrowHead (w : Words) (t : Types) (params : Node) : Build Node := do
  let returned ← nullable (← sequence [w.blanks, ← literal ":", w.blanks, t.arrowReturn])
  map renderArrowHead (← sequence [
    ← literal "(", w.blanks, ← capture "params" params, w.blanks, ← literal ")", returned,
    w.blanks, ← literal "=>"])

/-- Builds the expressions. -/
def expressions (w : Words) (g : Groups) (arrow : Node) : Build Node := do
  let blockComment ← regex "/\\*[\\s\\S]*?\\*/"
  let regexLiteral ← regex regexSource
  let word ← regex wordSource
  let operand ← choice [w.string, blockComment, arrow, g.any, word, regexLiteral]
  let operation ← joined (← regex "(?:[-+*%&|^<>=?:,.]+(?:\\s|//[^\\n]*)*)+") operand
  let division ← joined (← regex "/=?\\s*(?:[-+]\\s*)*") operand
  let nextLine ← joined (← regex "[ \\t]*\\r?\\n\\s*") operation
  map trimmed (← verbatimRun [
    w.string, blockComment, arrow, g.any, word, regexLiteral, division, operation, nextLine])

/-! ## Statements -/

/-- Builds the declarations that are erased. -/
def erasedDeclarations (w : Words) (g : Groups) (t : Types) : Build (List Node) := do
  let interfaceWord ← regex "(?:export\\s+)?(?:declare\\s+)?interface\\b"
  let interface ← map erase (← sequence [
    interfaceWord, w.someBlanks, w.identifier, w.blanks, ← nullable g.angles, w.blanks,
    ← nullable (← regex "extends\\b[^\x7b]*"), g.braces])
  let aliasWord ← regex "(?:export\\s+)?(?:declare\\s+)?type\\b"
  let typeAlias ← map erase (← sequence [
    aliasWord, w.someBlanks, w.identifier, w.blanks, ← nullable g.angles, w.blanks,
    ← literal "=", w.blanks, t.any, w.terminator])
  let typeOnly ← map erase (← sequence [
    ← regex "(?:import|export)\\s+type\\b[^;\\n]*", w.terminator])
  let ambient ← map erase (← sequence [
    ← regex "(?:export\\s+)?declare\\b[^;\x7b\\n]*", ← nullable g.braces, w.terminator])
  return [interface, typeAlias, typeOnly, ambient]

/-- Builds function declarations. -/
def functionDeclaration (w : Words) (g : Groups) (t : Types) (params block : Node) :
    Build Node := do
  let head ← regex "(?:export\\s+)?(?:default\\s+)?(?:async\\s+)?function\\b"
  let star ← nullable (← regex "\\s*\\*")
  map renderFunction (← sequence [
    ← capture "head" head, ← capture "star" star, w.blanks,
    ← capture "name" (← nullable w.identifier), w.blanks, ← nullable g.angles, w.blanks,
    ← literal "(", w.blanks, ← capture "params" params, w.blanks, ← literal ")",
    t.annotation, w.blanks, ← capture "body" block])

/-- Builds conditionals. -/
def conditional (w : Words) (g : Groups) : Build Node := do
  let otherwise ← sequence [
    w.blanks, ← regex "else\\b", w.blanks, ← capture "statement" (← reference "statement")]
  map renderIf (← sequence [
    ← regex "if\\b", w.blanks, ← capture "test" g.parens, w.blanks,
    ← capture "then" (← reference "statement"), ← capture "otherwise" (← nullable otherwise)])

/-- Builds loops. -/
def loop (w : Words) (g : Groups) : Build Node := do
  let keyword ← regex "(?:while|for)\\b"
  map renderLoop (← sequence [
    ← capture "keyword" keyword, w.blanks, ← capture "head" g.parens, w.blanks,
    ← capture "body" (← reference "statement")])

/-- Builds variable declarations. -/
def variableDeclaration (w : Words) (g : Groups) (t : Types) (expression : Node) : Build Node := do
  let kind ← regex "(?:export\\s+)?(?:let|const|var)\\b"
  let name ← choice [w.identifier, g.any]
  let init ← sequence [w.blanks, ← literal "=", w.blanks, ← capture "value" expression]
  map renderVar (← sequence [
    ← capture "kind" kind, w.someBlanks, ← capture "name" name, ← nullable (← regex "!"),
    t.annotation, ← capture "init" (← nullable init), w.terminator])

/-- Builds return statements. -/
def returnStatement (w : Words) (expression : Node) : Build Node := do
  let argument ← sequence [← regex "[ \\t]*", ← capture "value" expression]
  map renderReturn (← sequence [
    ← regex "return\\b", ← capture "argument" (← nullable argument), w.terminator])

/-- The places where a parse may begin. -/
structure EntryPoints where
  /-- A whole source. Its value is the JavaScript. -/
  program : Node
  /-- Blanks and a single statement, to find out what is wrong with one. -/
  statement : Node

/-- Builds the grammar. -/
def grammar : Build EntryPoints := do
  let w ← words
  let g ← groups w
  let t ← types w g
  let params ← parameters w g t
  let arrow ← arrowHead w t params
  let expression ← expressions w g arrow
  let next ← map (field "statement")
    (← sequence [w.blanks, ← capture "statement" (← reference "statement")])
  let statements ← repetition next
  let block ← symbol "block" do
    let opening ← literal "\x7b"
    let body ← capture "body" statements
    map renderBlock (← sequence [opening, body, w.blanks, ← literal "\x7d"])
  let erased ← erasedDeclarations w g t
  let function ← functionDeclaration w g t params block
  let conditional ← conditional w g
  let loop ← loop w g
  let variable_ ← variableDeclaration w g t expression
  let returned ← returnStatement w expression
  let standing ← map renderExpression
    (← sequence [← capture "expression" expression, w.terminator])
  let statement ← symbol "statement" do
    let empty ← map erase (← literal ";")
    choice ([w.comment] ++ erased ++
      [function, conditional, loop, variable_, returned, block, empty, standing])
  let program ← map renderProgram
    (← sequence [← capture "body" statements, w.blanks])
  let single ← sequence [w.blanks, ← capture "statement" statement]
  return { program, statement := single }

end Typestrip.TypeScript
