import Typestrip.Json.Document
import Typestrip.Text.Quoted

/-!
# Values of matches

What a match yields: the matched text, a list of what a repetition collected, the captured fields of a
sequence, or what a reshaping function made of these. `flatten` is the text that is left when all
structure is forgotten.

Values travel as JSON without a mark of their kind: the reader tries one kind after the other
(`toJson`, `ofJson?`). Numbers are floating-point numbers; those that are not finite become `null` on
the way.
-/

namespace Typestrip

/-- What a match yields. The fields of an object are in ascending order of their names. -/
inductive Value where
  | null
  | bool (b : Bool)
  | number (x : Float)
  | text (s : String)
  | list (items : List Value)
  | object (fields : List (String × Value))

namespace Value

instance : Inhabited Value := ⟨.null⟩

/-- How numbers are shown: digits without an exponent, whole numbers without a point. -/
def numberNotation : Decimal.Notation where
  positional := fun _ => true
  wholeSuffix := []
  exponentMark := []
  negativeExponentMark := []

/-- A number as it is shown. -/
def numberText (x : Float) : String :=
  if x.isNaN then "NaN"
  else if x.isInf then if Decimal.isNegative x then "-inf" else "inf"
  else String.ofList (numberNotation.writeFloat x)

/-- The text of a text value. -/
def text? : Value → Option String
  | text s => some s
  | _ => none

/-- The items of a list. -/
def list? : Value → Option (List Value)
  | list items => some items
  | _ => none

/-- A field of an object. -/
def field? (name : String) : Value → Option Value
  | object fields => Fields.find? name fields
  | _ => none

/-- Whether a value is `null`. -/
def isNull : Value → Bool
  | null => true
  | _ => false

/-- The name of the kind of a value. -/
def kindName : Value → String
  | null => "null"
  | bool _ => "bool"
  | number _ => "number"
  | text _ => "text"
  | list _ => "list"
  | object _ => "object"

mutual
/-- All texts in a value, one after the other, with numbers and truth values as they are shown. -/
def flatten : Value → String
  | null => ""
  | bool b => if b then "true" else "false"
  | number x => numberText x
  | text s => s
  | list items => flattenItems items
  | object fields => flattenFields fields

/-- The texts of the items of a list. -/
def flattenItems : List Value → String
  | [] => ""
  | v :: vs => flatten v ++ flattenItems vs

/-- The texts of the fields of an object. -/
def flattenFields : List (String × Value) → String
  | [] => ""
  | (_, v) :: fs => flatten v ++ flattenFields fs
end

mutual
/-- A value as it is shown: texts in quotation marks, lists in brackets, objects in braces with bare
names. -/
def shown : Value → String
  | null => "null"
  | bool b => if b then "true" else "false"
  | number x => numberText x
  | text s => Text.quote s
  | list items => "[" ++ ", ".intercalate (shownItems items) ++ "]"
  | object fields => "\x7b" ++ ", ".intercalate (shownFields fields) ++ "\x7d"

/-- The items of a list as they are shown. -/
def shownItems : List Value → List String
  | [] => []
  | v :: vs => shown v :: shownItems vs

/-- The fields of an object as they are shown. -/
def shownFields : List (String × Value) → List String
  | [] => []
  | (name, v) :: fs => (name ++ ": " ++ shown v) :: shownFields fs
end

mutual
/-- A value as JSON. -/
def toJson : Value → Json
  | null => .null
  | bool b => .bool b
  | number x => if x.isFinite then .number (.float x) else .null
  | text s => .string s
  | list items => .array (itemsToJson items)
  | object fields => .object (fieldsToJson fields)

/-- The items of a list as JSON. -/
def itemsToJson : List Value → List Json
  | [] => []
  | v :: vs => toJson v :: itemsToJson vs

/-- The fields of an object as JSON. -/
def fieldsToJson : List (String × Value) → List (String × Json)
  | [] => []
  | (name, v) :: fs => (name, toJson v) :: fieldsToJson fs
end

/-- `null` as a value. -/
def ofNull? : Json → Option Value
  | .null => some null
  | _ => none

/-- A truth value as a value. -/
def ofBool? : Json → Option Value
  | .bool b => some (bool b)
  | _ => none

/-- A number as a value, by the floating-point number nearest to it. -/
def ofNumber? : Json → Option Value
  | .number n => some (number n.toFloat)
  | _ => none

/-- A string as a value. -/
def ofString? : Json → Option Value
  | .string s => some (text s)
  | _ => none

mutual
/-- The value that JSON stands for. Nothing in JSON marks the kind of a value, so one kind is tried
after the other, and the first one that takes the JSON is it. -/
def ofJson? (j : Json) : Option Value :=
  ofNull? j <|> ofBool? j <|> ofNumber? j <|> ofString? j <|>
    (match j with
      | .array items => (itemsOfJson? items).map list
      | _ => none) <|>
    match j with
      | .object fields => (fieldsOfJson? [] fields).map object
      | _ => none

/-- The values of the items of an array. -/
def itemsOfJson? : List Json → Option (List Value)
  | [] => some []
  | j :: js => do
    let v ← ofJson? j
    return v :: (← itemsOfJson? js)

/-- Inserts the values of fields into `found`. -/
def fieldsOfJson? (found : List (String × Value)) :
    List (String × Json) → Option (List (String × Value))
  | [] => some found
  | (name, j) :: fs => do
    let v ← ofJson? j
    fieldsOfJson? (Fields.insert name v found) fs
end

/-- The value that a JSON text spells. -/
def parse? (cs : List Char) : Option Value := (Json.parse? cs).bind ofJson?

end Value

end Typestrip
