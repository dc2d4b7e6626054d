import Typestrip.Json.Record

/-!
# Failures

A failure is what a handler reports instead of a result: a category and a description. It travels as a
JSON record.
-/

namespace Typestrip.Rpc

/-- The report of a handler that has no result. -/
structure Failure where
  /-- The category. -/
  name : String
  message : String
  deriving DecidableEq, Repr

namespace Failure

/-- A failure as one line of text. -/
def text (f : Failure) : String := f.name ++ ": " ++ f.message

/-- The failure that stands for an error of which only the text is known. -/
def ofText (message : String) : Failure := ⟨"Error", message⟩

/-- The record of a failure. -/
def toJson (f : Failure) : Json :=
  .object [("name", .string f.name), ("message", .string f.message)]

open Json.Document in
/-- Reads the record of a failure. -/
def ofDocument? (d : Json.Document) : Option Failure := do
  match ← d.record? ["name", "message"] with
  | [name, message] => return ⟨← required string? name, ← required string? message⟩
  | _ => none

/-- Reads the record of a failure out of a value. -/
def ofJson? (j : Json) : Option Failure := ofDocument? j.toDocument

end Failure

end Typestrip.Rpc
