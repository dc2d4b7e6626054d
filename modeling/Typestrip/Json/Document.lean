import Typestrip.Json.Basic

/-!
# Reading JSON

A `Document` is a JSON text as it is spelled: fields in their order and with repetitions, numbers by
their digits, and strings that are no text, because a surrogate stands alone, marked as such. So a
reader that skips a part of a document takes no offence at what that part means, while
`Json.ofDocument?` demands that everything in it has a meaning.

`Json.parse?` is the reader for free-standing values; it admits 127 nested arrays and objects.
-/

namespace Typestrip.Json

/-- A JSON text as it is spelled. A string is `none` if its escapes leave a surrogate unpaired. -/
inductive Document where
  | null
  | bool (b : Bool)
  | number (l : Literal)
  | string (s : Option String)
  | array (items : List Document)
  | object (fields : List (Option String × Document))

namespace Document

/-- A blank between the parts of a document. -/
def isBlank (c : Char) : Bool := c = ' ' || c = '\n' || c = '\t' || c = '\r'

/-- The text after its leading blanks. -/
def skipBlanks (cs : List Char) : List Char := cs.dropWhile isBlank

/-- A part of a string: a character, or half of one written as a surrogate. -/
inductive Piece where
  | char (c : Char)
  | surrogate (n : Nat)

/-- Joins surrogates in pairs. There is no text if one is left over. -/
def join : List Piece → Option (List Char)
  | [] => some []
  | .char c :: rest => (join rest).map (c :: ·)
  | .surrogate high :: .surrogate low :: rest =>
    if high < 0xDC00 ∧ 0xDC00 ≤ low then
      (join rest).map (Char.ofNat (0x10000 + (high - 0xD800) * 0x400 + (low - 0xDC00)) :: ·)
    else none
  | .surrogate _ :: _ => none

/-- The value of a hexadecimal digit. -/
def hexDigit? (c : Char) : Option Nat :=
  if c.isDigit then some (c.toNat - '0'.toNat)
  else if 'a' ≤ c ∧ c ≤ 'f' then some (c.toNat - 'a'.toNat + 10)
  else if 'A' ≤ c ∧ c ≤ 'F' then some (c.toNat - 'A'.toNat + 10)
  else none

/-- The code written by four hexadecimal digits. -/
def code? (a b c d : Char) : Option Nat := do
  return (((← hexDigit? a) * 16 + (← hexDigit? b)) * 16 + (← hexDigit? c)) * 16 + (← hexDigit? d)

/-- A code of 16 bits as a part of a string. -/
def Piece.ofCode (n : Nat) : Piece :=
  if 0xD800 ≤ n ∧ n ≤ 0xDFFF then .surrogate n else .char (Char.ofNat n)

/-- The character that a backslash before `c` stands for, unless it introduces a code. -/
def escape? (c : Char) : Option Char :=
  if c = '"' ∨ c = '\\' ∨ c = '/' then some c
  else if c = 'b' then some '\x08'
  else if c = 'f' then some '\x0c'
  else if c = 'n' then some '\n'
  else if c = 'r' then some '\r'
  else if c = 't' then some '\t'
  else none

/-- The parts of a string from after its opening mark to its closing one, and what follows. -/
def readPieces (found : List Piece) : List Char → Option (List Piece × List Char)
  | [] => none
  | '"' :: rest => some (found.reverse, rest)
  | '\\' :: 'u' :: a :: b :: c :: d :: rest =>
    match code? a b c d with
    | some n => readPieces (Piece.ofCode n :: found) rest
    | none => none
  | '\\' :: c :: rest =>
    match escape? c with
    | some e => readPieces (.char e :: found) rest
    | none => none
  | c :: rest => if c.toNat < 0x20 then none else readPieces (.char c :: found) rest

/-- A string from after its opening mark. -/
def readString (cs : List Char) : Option (Option String × List Char) :=
  (readPieces [] cs).map fun (pieces, rest) => ((join pieces).map String.ofList, rest)

/-- The digits before the point: a single zero, or digits that begin with another. -/
def readWhole (cs : List Char) : Option (List Char × List Char) :=
  match Decimal.takeDigits cs with
  | ([], _) => none
  | ('0' :: _ :: _, _) => none
  | (digits, rest) => some (digits, rest)

/-- The digits after the point, if there is one. -/
def readFraction : List Char → Option (Option (List Char) × List Char)
  | '.' :: rest =>
    match Decimal.takeDigits rest with
    | ([], _) => none
    | (digits, rest) => some (some digits, rest)
  | rest => some (none, rest)

/-- The digits of an exponent after its sign. -/
def readExponentDigits (negative : Bool) (cs : List Char) :
    Option (Option (Bool × List Char) × List Char) :=
  match Decimal.takeDigits cs with
  | ([], _) => none
  | (digits, rest) => some (some (negative, digits), rest)

/-- The exponent, if there is one. -/
def readExponent : List Char → Option (Option (Bool × List Char) × List Char)
  | c :: rest =>
    if c = 'e' ∨ c = 'E' then
      match rest with
      | '-' :: rest => readExponentDigits true rest
      | '+' :: rest => readExponentDigits false rest
      | rest => readExponentDigits false rest
    else some (none, c :: rest)
  | [] => some (none, [])

/-- A number after its sign. -/
def readNumber (negative : Bool) (cs : List Char) : Option (Document × List Char) := do
  let (whole, rest) ← readWhole cs
  let (fraction, rest) ← readFraction rest
  let (exponent, rest) ← readExponent rest
  return (.number ⟨negative, whole, fraction, exponent⟩, rest)

/-- Items separated by commas up to the closing mark, at least one and at most `fuel`. -/
def readItems {α : Type} (close : Char) (item : List Char → Option (α × List Char)) (found : List α) :
    (fuel : Nat) → List Char → Option (List α × List Char)
  | 0, _ => none
  | fuel + 1, cs =>
    match item cs with
    | none => none
    | some (x, rest) =>
      match skipBlanks rest with
      | c :: rest =>
        if c = close then some ((x :: found).reverse, rest)
        else if c = ',' then readItems close item (x :: found) fuel rest
        else none
      | [] => none

/-- Items separated by commas up to the closing mark, possibly none. -/
def readSequence {α : Type} (close : Char) (item : List Char → Option (α × List Char)) (fuel : Nat)
    (cs : List Char) : Option (List α × List Char) :=
  match skipBlanks cs with
  | c :: rest => if c = close then some ([], rest) else readItems close item [] fuel (c :: rest)
  | [] => none

/-- A field of an object, its value read by `value`. -/
def readField (value : List Char → Option (Document × List Char)) (cs : List Char) :
    Option ((Option String × Document) × List Char) :=
  match skipBlanks cs with
  | '"' :: rest => do
    let (name, rest) ← readString rest
    match skipBlanks rest with
    | ':' :: rest =>
      let (d, rest) ← value rest
      return ((name, d), rest)
    | _ => none
  | _ => none

/-- A document at the beginning of a text, and what follows it. `fuel` bounds the nesting and the
length of each sequence; the length of the text is enough. -/
def read : (fuel : Nat) → List Char → Option (Document × List Char)
  | 0, _ => none
  | fuel + 1, cs =>
    match skipBlanks cs with
    | 'n' :: 'u' :: 'l' :: 'l' :: rest => some (null, rest)
    | 't' :: 'r' :: 'u' :: 'e' :: rest => some (bool true, rest)
    | 'f' :: 'a' :: 'l' :: 's' :: 'e' :: rest => some (bool false, rest)
    | '"' :: rest => (readString rest).map fun (s, rest) => (string s, rest)
    | '-' :: rest => readNumber true rest
    | '[' :: rest =>
      (readSequence ']' (read fuel) fuel rest).map fun (items, rest) => (array items, rest)
    | '\x7b' :: rest =>
      (readSequence '\x7d' (readField (read fuel)) fuel rest).map fun (fields, rest) =>
        (object fields, rest)
    | rest => readNumber false rest

/-- The document that a whole text spells. -/
def ofChars? (cs : List Char) : Option Document :=
  match read (cs.length + 1) cs with
  | some (d, rest) => if (skipBlanks rest).isEmpty then some d else none
  | none => none

mutual
/-- How many arrays and objects are nested in each other. -/
def depth : Document → Nat
  | array items => itemsDepth items + 1
  | object fields => fieldsDepth fields + 1
  | _ => 0

/-- The greatest depth of an item. -/
def itemsDepth : List Document → Nat
  | [] => 0
  | d :: ds => max (depth d) (itemsDepth ds)

/-- The greatest depth of a field. -/
def fieldsDepth : List (Option String × Document) → Nat
  | [] => 0
  | (_, d) :: fs => max (depth d) (fieldsDepth fs)
end

end Document

open Document in
mutual
/-- The value that a document means. Fields are put in ascending order, the last one of a name wins.
There is none if a number is out of range or a string is no text. -/
def ofDocument? : Document → Option Json
  | .null => some null
  | .bool b => some (bool b)
  | .number l => l.value?.map number
  | .string s => s.map string
  | .array items => (ofDocuments? items).map array
  | .object fields => (ofFields? [] fields).map object

/-- The values of a list of documents. -/
def ofDocuments? : List Document → Option (List Json)
  | [] => some []
  | d :: ds => do
    let j ← ofDocument? d
    let js ← ofDocuments? ds
    return j :: js

/-- Inserts the values of fields into `found`. -/
def ofFields? (found : List (String × Json)) :
    List (Option String × Document) → Option (List (String × Json))
  | [] => some found
  | (name, d) :: fs => do
    let n ← name
    let j ← ofDocument? d
    ofFields? (Fields.insert n j found) fs
end

/-- The deepest nesting of arrays and objects that a free-standing value may have. -/
def maxDepth : Nat := 127

/-- The value that a text spells. -/
def parse? (cs : List Char) : Option Json :=
  match Document.ofChars? cs with
  | some d => if d.depth ≤ maxDepth then ofDocument? d else none
  | none => none

mutual
/-- A spelling of a value: numbers by their text, everything else as it stands. -/
def toDocument : Json → Document
  | null => .null
  | bool b => .bool b
  | number n =>
    match Document.read 1 n.text with
    | some (d, _) => d
    | none => .null
  | string s => .string (some s)
  | array items => .array (toDocuments items)
  | object fields => .object (fieldsToDocuments fields)

/-- Spellings of a list of values. -/
def toDocuments : List Json → List Document
  | [] => []
  | j :: js => toDocument j :: toDocuments js

/-- Spellings of fields. -/
def fieldsToDocuments : List (String × Json) → List (Option String × Document)
  | [] => []
  | (name, j) :: fs => (some name, toDocument j) :: fieldsToDocuments fs
end

end Typestrip.Json
