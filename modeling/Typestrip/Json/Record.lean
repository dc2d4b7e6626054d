import Typestrip.Json.Document

/-!
# Records in JSON

A record is a fixed list of named fields. It is written as an object with the fields in the record's
own order, and read from such an object with the fields in any order or from the array of its values.
Unknown fields are skipped without a look at their meaning; a field given twice, a field whose name
is no text and an array with too many values make the record unreadable. `Document.record?` sorts a
document into the fields of a record, and the functions after it read single values.
-/

namespace Typestrip.Json.Document

/-- The values found for the fields of a record: `none` for a field that was not given. -/
abbrev Slots := List (Option Document)

/-- Puts a value into the slot of its field. Fails if the slot is taken; a name without a slot
changes nothing. -/
def fill? (name : String) (value : Document) : List String → Slots → Option Slots
  | n :: names, slot :: slots =>
    if n = name then
      match slot with
      | none => some (some value :: slots)
      | some _ => none
    else (fill? name value names slots).map (slot :: ·)
  | _, slots => some slots

/-- Sorts the fields of an object into slots. -/
def fillAll? (names : List String) (slots : Slots) :
    List (Option String × Document) → Option Slots
  | [] => some slots
  | (some name, value) :: rest =>
    match fill? name value names slots with
    | some slots => fillAll? names slots rest
    | none => none
  | (none, _) :: _ => none

/-- Pads the values of an array with empty slots. Fails if there are more values than names. -/
def align? : List String → List Document → Option Slots
  | [], [] => some []
  | [], _ :: _ => none
  | _ :: names, [] => (align? names []).map (none :: ·)
  | _ :: names, d :: ds => (align? names ds).map (some d :: ·)

/-- The values that a document gives to the fields of a record. -/
def record? (names : List String) : Document → Option Slots
  | object fields => fillAll? names (names.map fun _ => none) fields
  | array items => align? names items
  | _ => none

/-- A truth value. -/
def bool? : Document → Option Bool
  | bool b => some b
  | _ => none

/-- A text. -/
def string? : Document → Option String
  | string s => s
  | _ => none

/-- A whole number of at most `max`. -/
def unsigned? (max : Nat) : Document → Option Nat
  | number l =>
    match l.value? with
    | some (.int n) => if 0 ≤ n ∧ n ≤ max then some n.toNat else none
    | _ => none
  | _ => none

/-- A value that may be `null`. -/
def nullable? {α : Type} (read : Document → Option α) : Document → Option (Option α)
  | null => some none
  | d => (read d).map some

/-- An array of values. -/
def list? {α : Type} (read : Document → Option α) : Document → Option (List α)
  | array items => items.mapM read
  | _ => none

/-- One of a fixed set of names: its string, or an object with `null` as its only field, under that
name. -/
def name? : Document → Option String
  | string s => s
  | object [(some name, null)] => some name
  | _ => none

/-- A field that has to be given. -/
def required {α : Type} (read : Document → Option α) : Option Document → Option α
  | some d => read d
  | none => none

/-- A field with a value for the case that it is not given. -/
def withDefault {α : Type} (default : α) (read : Document → Option α) : Option Document → Option α
  | some d => read d
  | none => some default

end Typestrip.Json.Document
