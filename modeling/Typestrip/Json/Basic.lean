import Typestrip.Fields
import Typestrip.Json.Number

/-!
# JSON values

The values of JSON and their compact text: no blanks, characters outside ASCII as they are, control
characters as escapes. `Json.text` writes the fields of an object in the order in which they stand;
`Json.sorted` puts them in ascending order of their names at every level.
-/

namespace Typestrip

/-- A value of JSON. -/
inductive Json where
  | null
  | bool (b : Bool)
  | number (n : Json.Number)
  | string (s : String)
  | array (items : List Json)
  | object (fields : List (String × Json))

namespace Json

instance : Inhabited Json := ⟨.null⟩

/-- A whole number as a value. -/
def ofNat (n : Nat) : Json := .number (.int n)

/-- A control character by its code, `\u00…` with two hexadecimal digits. -/
def controlEscape (c : Char) : List Char :=
  ['\\', 'u', '0', '0', Nat.digitChar (c.toNat / 16), Nat.digitChar (c.toNat % 16)]

/-- A character as it stands inside a string. -/
def escaped (c : Char) : List Char :=
  if c = '"' then ['\\', '"']
  else if c = '\\' then ['\\', '\\']
  else if c = '\x08' then ['\\', 'b']
  else if c = '\x0c' then ['\\', 'f']
  else if c = '\n' then ['\\', 'n']
  else if c = '\r' then ['\\', 'r']
  else if c = '\t' then ['\\', 't']
  else if c.toNat < 0x20 then controlEscape c
  else [c]

/-- The text of a string. -/
def stringText (s : String) : List Char := '"' :: s.toList.flatMap escaped ++ ['"']

/-- Texts with commas between them. -/
def separated : List (List Char) → List Char
  | [] => []
  | [t] => t
  | t :: ts => t ++ ',' :: separated ts

mutual
/-- The compact text of a value. -/
def chars : Json → List Char
  | null => ['n', 'u', 'l', 'l']
  | bool true => ['t', 'r', 'u', 'e']
  | bool false => ['f', 'a', 'l', 's', 'e']
  | number n => n.text
  | string s => stringText s
  | array items => '[' :: separated (itemChars items) ++ [']']
  | object fields => '\x7b' :: separated (fieldChars fields) ++ ['\x7d']

/-- The texts of the items of an array. -/
def itemChars : List Json → List (List Char)
  | [] => []
  | j :: js => chars j :: itemChars js

/-- The texts of the fields of an object. -/
def fieldChars : List (String × Json) → List (List Char)
  | [] => []
  | (name, j) :: fs => (stringText name ++ ':' :: chars j) :: fieldChars fs
end

/-- The compact text of a value. -/
def text (j : Json) : String := String.ofList j.chars

mutual
/-- The same value with the fields of every object in ascending order of their names. Of fields with
the same name the last one stays. -/
def sorted : Json → Json
  | array items => array (sortedItems items)
  | object fields => object (Fields.ofList (sortedFields fields))
  | j => j

/-- Sorts every item. -/
def sortedItems : List Json → List Json
  | [] => []
  | j :: js => sorted j :: sortedItems js

/-- Sorts inside every field. -/
def sortedFields : List (String × Json) → List (String × Json)
  | [] => []
  | (name, j) :: fs => (name, sorted j) :: sortedFields fs
end

/-- The text of a string value. -/
def string? : Json → Option String
  | string s => some s
  | _ => none

/-- The items of an array. -/
def array? : Json → Option (List Json)
  | array items => some items
  | _ => none

/-- A truth value. -/
def bool? : Json → Option Bool
  | bool b => some b
  | _ => none

/-- An unsigned whole number of 64 bits. -/
def unsigned? : Json → Option Nat
  | number (.int n) => if 0 ≤ n then some n.toNat else none
  | _ => none

/-- A signed whole number of 64 bits. -/
def signed? : Json → Option Int
  | number (.int n) => if n < Nat.pow 2 63 then some n else none
  | _ => none

/-- The field of an object with the given name. -/
def field? (name : String) : Json → Option Json
  | object fields => Fields.find? name fields
  | _ => none

end Json

end Typestrip
