import Typestrip.Regex.CharSet

/-!
# Properties by name

The sets of characters that a pattern names in braces: general categories, groups of them, scripts,
and a few properties of their own. Names are compared without regard to case, blanks, hyphens and
underscores, and a leading `is` does not count.
-/

namespace Typestrip.Regex.CharSet

open Unicode

/-- The union of categories. -/
def categories (ks : List Category) : CharSet :=
  ks.foldr (fun k s => union (category k) s) nothing

/-- Every category with its names. -/
def categoryNames : List (List String × Category) := [
  (["lu", "uppercaseletter"], .uppercaseLetter), (["ll", "lowercaseletter"], .lowercaseLetter),
  (["lt", "titlecaseletter"], .titlecaseLetter), (["lm", "modifierletter"], .modifierLetter),
  (["lo", "otherletter"], .otherLetter), (["mn", "nonspacingmark"], .nonspacingMark),
  (["mc", "spacingmark"], .spacingMark), (["me", "enclosingmark"], .enclosingMark),
  (["nd", "decimalnumber", "digit"], .decimalNumber), (["nl", "letternumber"], .letterNumber),
  (["no", "othernumber"], .otherNumber), (["pc", "connectorpunctuation"], .connectorPunctuation),
  (["pd", "dashpunctuation"], .dashPunctuation), (["ps", "openpunctuation"], .openPunctuation),
  (["pe", "closepunctuation"], .closePunctuation),
  (["pi", "initialpunctuation"], .initialPunctuation),
  (["pf", "finalpunctuation"], .finalPunctuation), (["po", "otherpunctuation"], .otherPunctuation),
  (["sm", "mathsymbol"], .mathSymbol), (["sc", "currencysymbol"], .currencySymbol),
  (["sk", "modifiersymbol"], .modifierSymbol), (["so", "othersymbol"], .otherSymbol),
  (["zs", "spaceseparator"], .spaceSeparator), (["zl", "lineseparator"], .lineSeparator),
  (["zp", "paragraphseparator"], .paragraphSeparator), (["cc", "control", "cntrl"], .control),
  (["cf", "format"], .format), (["cs", "surrogate"], .surrogate),
  (["co", "privateuse"], .privateUse), (["cn", "unassigned"], .unassigned)]

/-- Every group of categories with its names. -/
def groupNames : List (List String × (Category → Bool)) := [
  (["l", "letter"], Category.isLetter), (["m", "mark", "combiningmark"], Category.isMark),
  (["n", "number"], Category.isNumber), (["p", "punctuation", "punct"], Category.isPunctuation),
  (["s", "symbol"], Category.isSymbol), (["z", "separator"], Category.isSeparator),
  (["c", "other"], Category.isOther),
  (["lc", "casedletter"], fun k => k.isLetter && k != .modifierLetter && k != .otherLetter)]

/-- The set of a general category or a group of them. -/
def categoryNamed? (name : String) : Option CharSet :=
  if name = "any" then some any
  else if name = "assigned" then some (complement (category .unassigned))
  else if name = "ascii" then some (range 0 127)
  else
    match categoryNames.find? (·.1.contains name) with
    | some (_, k) => some (category k)
    | none =>
      (groupNames.find? (·.1.contains name)).map fun (_, p) =>
        categories (Category.all.toList.filter p)

/-- The set of a property that stands alone. -/
def propertyNamed? (name : String) : Option CharSet :=
  if name = "whitespace" ∨ name = "wspace" ∨ name = "space" then some space
  else
    match categoryNamed? name with
    | some s => some s
    | none => (Script.ofName? name).map script

/-- A name without capitals and separators. -/
def plainName (cs : List Char) : String :=
  let cs := (cs.filter fun c => c ≠ ' ' ∧ c ≠ '_' ∧ c ≠ '-').map Char.toLower
  String.ofList <| match cs with
    | 'i' :: 's' :: rest => if rest.isEmpty || rest = ['c'] then cs else rest
    | _ => cs

/-- The set of a named property: a name alone, or a property and a value with `=`, `:` or `!=`
between them, the last of which asks for the complement. -/
def ofProperty? (written : String) : Option CharSet :=
  let isMark := fun c => c = '=' ∨ c = ':' ∨ c = '!'
  let cs := written.toList
  let before := cs.takeWhile fun c => !isMark c
  let value? (rest : List Char) : Option CharSet :=
    let property := plainName before
    let value := plainName rest
    if property = "gc" ∨ property = "generalcategory" then categoryNamed? value
    else if property = "sc" ∨ property = "script" then (Script.ofName? value).map script
    else none
  match cs.dropWhile fun c => !isMark c with
  | [] => propertyNamed? (plainName cs)
  | '!' :: '=' :: rest => (value? rest).map complement
  | '!' :: _ => none
  | _ :: rest => value? rest

end Typestrip.Regex.CharSet
