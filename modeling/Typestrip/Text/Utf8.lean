/-!
# Reading UTF-8

`decode` reads a sequence of bytes as UTF-8 text. Where the bytes are no text it says at which byte
the trouble starts and of what kind it is: a sequence of one to three bytes that no text contains,
or the beginning of a character cut off by the end of the input.
-/

namespace Typestrip.Utf8

/-- Why a sequence of bytes is no text. -/
inductive DecodeError where
  /-- The `length` bytes from `index` on begin no character. -/
  | invalid (index length : Nat)
  /-- The input ends inside the character that begins at `index`. -/
  | incomplete (index : Nat)
  deriving DecidableEq, Repr

/-- The message for a decoding error. -/
def DecodeError.message : DecodeError → String
  | invalid index length => s!"invalid utf-8 sequence of {length} bytes from index {index}"
  | incomplete index => s!"incomplete utf-8 byte sequence from index {index}"

/-- A byte that goes on with a character begun before. -/
def isContinuation (b : UInt8) : Bool := 0x80 ≤ b && b ≤ 0xBF

/-- The payload of a continuation byte. -/
def payload (b : UInt8) : Nat := b.toNat % 64

/-- The second bytes that may follow the first byte of a character of three bytes: overlong forms
and surrogates are left out. -/
def secondOfThree (first second : UInt8) : Bool :=
  if first = 0xE0 then 0xA0 ≤ second && second ≤ 0xBF
  else if first = 0xED then 0x80 ≤ second && second ≤ 0x9F
  else isContinuation second

/-- The second bytes that may follow the first byte of a character of four bytes: overlong forms and
code points past the last one are left out. -/
def secondOfFour (first second : UInt8) : Bool :=
  if first = 0xF0 then 0x90 ≤ second && second ≤ 0xBF
  else if first = 0xF4 then 0x80 ≤ second && second ≤ 0x8F
  else isContinuation second

/-- Reads bytes from position `index` of the input on, after the characters of `read`, which are in
reverse. -/
def decodeFrom (index : Nat) (read : List Char) : List UInt8 → Except DecodeError (List Char)
  | [] => .ok read.reverse
  | a :: rest =>
    if a < 0x80 then decodeFrom (index + 1) (Char.ofNat a.toNat :: read) rest
    else if 0xC2 ≤ a && a ≤ 0xDF then
      match rest with
      | [] => .error (.incomplete index)
      | b :: rest =>
        if isContinuation b then
          decodeFrom (index + 2) (Char.ofNat ((a.toNat - 0xC0) * 64 + payload b) :: read) rest
        else .error (.invalid index 1)
    else if 0xE0 ≤ a && a ≤ 0xEF then
      match rest with
      | [] => .error (.incomplete index)
      | b :: rest =>
        if secondOfThree a b then
          match rest with
          | [] => .error (.incomplete index)
          | c :: rest =>
            if isContinuation c then
              decodeFrom (index + 3)
                (Char.ofNat (((a.toNat - 0xE0) * 64 + payload b) * 64 + payload c) :: read) rest
            else .error (.invalid index 2)
        else .error (.invalid index 1)
    else if 0xF0 ≤ a && a ≤ 0xF4 then
      match rest with
      | [] => .error (.incomplete index)
      | b :: rest =>
        if secondOfFour a b then
          match rest with
          | [] => .error (.incomplete index)
          | c :: rest =>
            if isContinuation c then
              match rest with
              | [] => .error (.incomplete index)
              | d :: rest =>
                if isContinuation d then
                  decodeFrom (index + 4)
                    (Char.ofNat ((((a.toNat - 0xF0) * 64 + payload b) * 64 + payload c) * 64 +
                      payload d) :: read) rest
                else .error (.invalid index 3)
            else .error (.invalid index 2)
        else .error (.invalid index 1)
    else .error (.invalid index 1)

/-- The text that a sequence of bytes spells in UTF-8. -/
def decode (bytes : List UInt8) : Except DecodeError (List Char) := decodeFrom 0 [] bytes

/-- The UTF-8 form of a text. -/
def encode (s : String) : List UInt8 := s.toUTF8.toList

end Typestrip.Utf8
