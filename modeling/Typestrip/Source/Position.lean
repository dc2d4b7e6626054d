import Typestrip.Json.Record

/-!
# Positions in a source text

A position names a character boundary of a source text by line and column, both counted from one, and
by byte offset. `Position.ofOffset` finds the last boundary at or before an offset.
-/

namespace Typestrip.Source

/-- A place in a source text. Columns count characters, offsets count bytes. -/
structure Position where
  line : UInt32
  column : UInt32
  offset : UInt64
  deriving DecidableEq, Repr

namespace Position

/-- The position of the beginning of a text. -/
def start : Position := ⟨1, 1, 0⟩

/-- The position after a character that stands at `p`. -/
def after (p : Position) (c : Char) : Position :=
  if c = '\n' then ⟨p.line + 1, 1, p.offset + c.utf8Size.toUInt64⟩
  else ⟨p.line, p.column + 1, p.offset + c.utf8Size.toUInt64⟩

/-- Moves on from `p` over characters that end within the next `room` bytes. -/
def advance (p : Position) (room : Nat) : List Char → Position
  | [] => p
  | c :: cs => if c.utf8Size ≤ room then advance (p.after c) (room - c.utf8Size) cs else p

/-- The last character boundary of a text at or before an offset. Offsets past the end name the
end. -/
def ofOffset (source : List Char) (offset : Nat) : Position := advance start offset source

/-- A position as it is shown in front of a message. -/
def text (p : Position) : String := s!"{p.line}:{p.column}"

/-- The record of a position. -/
def toJson (p : Position) : Json :=
  .object [("line", .ofNat p.line.toNat), ("column", .ofNat p.column.toNat),
    ("offset", .ofNat p.offset.toNat)]

/-- Reads the record of a position. -/
def ofDocument? (d : Json.Document) : Option Position := do
  match ← d.record? ["line", "column", "offset"] with
  | [line, column, offset] =>
    let line ← Json.Document.required (Json.Document.unsigned? (Nat.pow 2 32 - 1)) line
    let column ← Json.Document.required (Json.Document.unsigned? (Nat.pow 2 32 - 1)) column
    let offset ← Json.Document.required (Json.Document.unsigned? (Nat.pow 2 64 - 1)) offset
    return ⟨.ofNat line, .ofNat column, .ofNat offset⟩
  | _ => none

end Position

end Typestrip.Source
