import Typestrip.Json.Record

/-!
# Settings

What a user may choose: the number of workers, whether matches are remembered, how deeply rules may
nest, and how large the stack of a worker is. Settings are read from a JSON record in which every
field may be missing.
-/

namespace Typestrip.TypeScript

/-- The settings of a run. -/
structure Settings where
  /-- The number of workers. Where none is given there are as many as processors. -/
  poolSize : Option Nat := none
  /-- Whether matches are remembered. -/
  memoize : Bool := true
  /-- How many rules may be entered inside each other. -/
  maxDepth : Nat := 256
  /-- The size of the stack of a worker in bytes. -/
  stackSize : Nat := 8 * 1024 * 1024
  deriving DecidableEq, Repr

namespace Settings

open Json.Document in
/-- Reads the record of settings. A field that is not given has its default. -/
def ofDocument? (d : Json.Document) : Option Settings := do
  let defaults : Settings := {}
  let size := unsigned? Json.maxUnsigned
  match ← d.record? ["poolSize", "memoize", "maxDepth", "stackSize"] with
  | [poolSize, memoize, maxDepth, stackSize] =>
    return {
      poolSize := ← withDefault defaults.poolSize (fun d => (size d).map some) poolSize
      memoize := ← withDefault defaults.memoize bool? memoize
      maxDepth := ← withDefault defaults.maxDepth size maxDepth
      stackSize := ← withDefault defaults.stackSize size stackSize }
  | _ => none

/-- Reads the text of a settings file. -/
def ofText? (text : List Char) : Option Settings :=
  (Json.Document.ofChars? text).bind ofDocument?

/-- The settings with another number of workers. -/
def withPoolSize (s : Settings) (n : Nat) : Settings := { s with poolSize := some n }

end Settings

end Typestrip.TypeScript
