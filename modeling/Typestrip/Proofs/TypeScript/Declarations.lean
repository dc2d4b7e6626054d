import Typestrip.Proofs.Grammar.Versions
import Typestrip.Proofs.TypeScript.Types

/-!
# Declarations with annotations

The outlines of variable and function declarations, written down and compared with the compiled
grammar. Of a variable declaration everything in front of its value is written down, and of a function
declaration everything. A declaration is the first alternative of a statement that matches, because
those in front of it do not begin as it does (`Declared`).
-/

namespace Typestrip.Grammar

/-! ## Outlines that refuse a character -/

mutual
/-- Nothing is matched where a text begins with a character, as far as the first terminal of the
outline tells. -/
def Outline.refuses (d : Char) : Outline → Bool
  | .literal text => text.head?.any (· ≠ d)
  | .pattern (.seq (.look .textStart) e) => e.skips d
  | .sequence os => Outline.headRefuses d os
  | .kept o => Outline.refuses d o
  | _ => false

/-- Nothing is matched by the first outline of a list. -/
def Outline.headRefuses (d : Char) : List Outline → Bool
  | [] => false
  | o :: _ => Outline.refuses d o
end

theorem Outline.course_of_refuses {bodies : Nat → Option Outline} {place : List Char → Prop}
    {d : Char} : ∀ {o : Outline}, o.refuses d = true → ∀ cs, Course bodies place o (d :: cs) none
  | .literal text, h, cs => by
    refine .literalFailed ?_
    rintro ⟨rest, htext⟩
    cases text with
    | nil => cases h
    | cons c text =>
      obtain rfl := (List.cons.inj htext).1
      simp [refuses] at h
  | .pattern regex, h, cs => by
    unfold refuses at h
    split at h
    · cases ‹Outline.pattern regex = _›
    · next e heq =>
      obtain rfl := Outline.pattern.inj heq
      exact course_anchored_iff.mpr (Regex.Expr.rest?_of_skips h cs).symm
    · cases ‹Outline.pattern regex = _›
    · cases ‹Outline.pattern regex = _›
    · cases h
  | .sequence (o :: os), h, cs => .partFailed (course_of_refuses (o := o) h cs)
  | .kept o, h, cs => .kept (course_of_refuses (o := o) h cs)

end Typestrip.Grammar

namespace Typestrip.TypeScript

open Grammar Regex

/-! ## Patterns -/

/-- Some characters in front of something. -/
def spelled (word : List Char) (e : Expr) : Expr := word.foldr (fun c e => .seq (char c) e) e

/-- A word and blanks behind it, or nothing. -/
def modifier (word : String) : Expr := .alt (spelled word.toList (plus (.chars .space))) .empty

/-- What a variable declaration begins with. -/
def bindingHead : Expr :=
  .seq (modifier "export") (.seq (anyOf (["let", "const", "var"].map fun s => chars s.toList))
    (.look (.wordBoundary false)))

/-- What a function declaration begins with. -/
def functionHead : Expr :=
  .seq (modifier "export") (.seq (modifier "default") (.seq (modifier "async")
    (spelled "function".toList (.look (.wordBoundary false)))))

def alphanumeric : CharSet :=
  .union (.range 65 90) (.union (.range 97 122) (.union (.range 48 57) (oneOf ['_', '$'])))

def identifier : Expr := .seq (.chars letter) (.star true (.chars alphanumeric))

def paramName : Expr := .seq (.alt (chars ['.', '.', '.']) .empty) identifier

/-- A character behind blanks. -/
def mark (c : Char) : Expr := .seq (.star true (.chars .space)) (char c)

def terminator : Expr := .seq (.star true (.chars (oneOf [' ', '\t']))) (char ';')

def defaultChunk : Expr :=
  plus (.chars (.complement (oneOf
    [',', ';', '{', '}', '(', ')', '[', ']', '"', '\'', '`', '\n', '/'])))

/-! ## Outlines -/

/-- A colon with a type, or nothing. -/
def annotationOutline : Outline :=
  .optional (.sequence [blanksOutline, .literal [':'], blanksOutline, .rule (some 6)])

/-- An equals sign with a value. -/
def initParts (value : Outline) : List Outline :=
  [blanksOutline, .literal ['='], blanksOutline, .kept value]

def initOutline (value : Outline) : Outline := .kept (.optional (.sequence (initParts value)))

/-- What stands in front of the value. -/
def bindingFront : List Outline :=
  [.kept (scan bindingHead), scan (plus (.chars .space)),
    .kept (.choice [scan identifier, .rule (some 3)]), .optional (scan (char '!')),
    annotationOutline]

def bindingOutline (value : Outline) : Outline :=
  .sequence (bindingFront ++ [initOutline value, .optional (scan terminator)])

/-- The default of a parameter. -/
def defaultOutline : Outline :=
  let pieces := Outline.choice [scan string, .rule (some 3), scan defaultChunk]
  .sequence [.kept pieces, .kept (.repetition pieces)]

def paramParts : List Outline :=
  [.kept (.choice [scan paramName, .rule (some 3)]), .optional (scan (mark '?')), annotationOutline,
    initOutline defaultOutline]

def paramOutline : Outline := .kept (.sequence paramParts)

def furtherParamOutline : Outline :=
  .sequence [blanksOutline, .literal [','], blanksOutline, paramOutline]

def paramsParts : List Outline :=
  [paramOutline, .kept (.repetition furtherParamOutline),
    .optional (.sequence [blanksOutline, .literal [',']])]

def paramsOutline : Outline := .kept (.optional (.sequence paramsParts))

def blockOutline : Outline :=
  .sequence [.literal ['{'], .kept (.repetition nextOutline), blanksOutline, .literal ['}']]

/-- What stands in front of the type parameters. -/
def functionFront : List Outline :=
  [.kept (scan functionHead), .kept (.optional (scan (mark '*'))), blanksOutline,
    .kept (.optional (scan identifier)), blanksOutline]

/-- What stands between the type parameters and the body. -/
def signature : List Outline :=
  [blanksOutline, .literal ['('], blanksOutline, paramsOutline, blanksOutline, .literal [')'],
    annotationOutline, blanksOutline]

def functionOutline : Outline :=
  .sequence (functionFront ++ .optional (.rule (some 4)) :: (signature ++ [.kept (.rule (some 8))]))

/-! ## The compiled grammar -/

/-- Checks that the alternative of a statement with a number is a declaration, that those in front of it
refuse the character that it begins with, and that nothing stands in them that lies ahead. -/
def declaredBy (rules : Rules) (i : Nat) (d : Char) (o : Outline) (ahead : List Outline) : Bool :=
  match outlineOf rules 9 with
  | some (.choice os) =>
    os[i]?.any o.same && (os.take i).all (fun p => p.refuses d && p.clear (o :: ahead))
  | _ => false

/-- What a variable declaration may have for its value. -/
def valueOf : Outline → Option Outline
  | .sequence [_, _, _, _, _, .kept (.optional (.sequence [_, _, _, .kept value])), _] => some value
  | _ => none

/-- A declaration is an alternative of a statement. Those in front of it refuse the character that it
begins with, and nothing stands in them that lies ahead. -/
def Declared (rules : Rules) (i : Nat) (d : Char) (o : Outline) (ahead : List Outline) : Prop :=
  ∃ front back, outlineOf rules 9 = some (.choice (front ++ o :: back)) ∧ front.length = i ∧
    ∀ p ∈ front, p.refuses d = true ∧ p.clear (o :: ahead) = true

theorem declared_of_declaredBy {rules : Rules} {i : Nat} {d : Char} {o : Outline}
    {ahead : List Outline} (h : declaredBy rules i d o ahead = true) : Declared rules i d o ahead := by
  rw [declaredBy] at h
  split at h
  · next os hos =>
    obtain ⟨ho, hfront⟩ := Bool.and_eq_true_iff.mp h
    obtain ⟨p, hp, hsame⟩ := (Option.any_eq_true _ _).mp ho
    obtain rfl := Outline.eq_of_same hsame
    obtain ⟨hi, rfl⟩ := List.getElem?_eq_some_iff.mp hp
    refine ⟨os.take i, os.drop (i + 1), ?_, List.length_take_of_le hi.le, fun p hp => ?_⟩
    · rw [hos, ← List.drop_eq_getElem_cons hi, List.take_append_drop]
    · exact Bool.and_eq_true_iff.mp (List.all_eq_true.mp hfront p hp)
  · cases h

/-- Checks the bodies of the rules and how the empty text is matched. -/
def outlinedBy (parsers : Parsers) : Bool :=
  let rules := parsers.program.rules
  typeOutlines.zipIdx.all (fun x => (outlineOf rules x.2).any x.1.same) &&
    (parsers.program.root.read rules 8 []).leaves? == some (some []) &&
    (outlineOf rules 8).any blockOutline.same &&
    declaredBy rules 5 'f' functionOutline [.kept (.rule (some 8))] &&
    match outlineOf rules 9 with
    | some (.choice os) => (os[8]?.bind valueOf).any fun value =>
      declaredBy rules 8 'l' (bindingOutline value) [initOutline value]
    | _ => false

theorem outlined_compiled : Parsers.compiled.toOption.any outlinedBy = true := by
  rw [Parsers.compiled_eq]
  decide +kernel

/-- What the grammar says about types and declarations. -/
structure Parsers.Outlined (parsers : Parsers) : Prop where
  empty : Leaves (outlineOf parsers.program.rules) (.repetition nextOutline) [] (some [])
  types : TypeRules (outlineOf parsers.program.rules)
  block : outlineOf parsers.program.rules 8 = some blockOutline
  function : Declared parsers.program.rules 5 'f' functionOutline [.kept (.rule (some 8))]
  binding : ∃ value, Declared parsers.program.rules 8 'l' (bindingOutline value) [initOutline value]

theorem eq_of_any_same {o : Outline} {x : Option Outline} (h : x.any o.same = true) : x = some o := by
  obtain ⟨p, rfl, hsame⟩ := (Option.any_eq_true _ _).mp h
  rw [Outline.eq_of_same hsame]

theorem Parsers.outlined {parsers : Parsers} (h : Parsers.compiled = .ok parsers) :
    parsers.Outlined := by
  have hcheck := outlined_compiled
  rw [h] at hcheck
  simp only [Except.toOption, Option.any_some, outlinedBy, Bool.and_eq_true] at hcheck
  obtain ⟨⟨⟨⟨htypes, hempty⟩, hblock⟩, hfunction⟩, hbinding⟩ := hcheck
  have hbody {slot : Nat} {o : Outline} (ho : (o, slot) ∈ typeOutlines.zipIdx) :
      outlineOf parsers.program.rules slot = some o :=
    eq_of_any_same (List.all_eq_true.mp htypes _ ho)
  refine ⟨?_, ⟨?_, ?_, ?_, ?_, ?_, ?_, ?_⟩, eq_of_any_same hblock, declared_of_declaredBy hfunction,
    ?_⟩
  · have hleaves := Matcher.leaves_of_read (beq_iff_eq.mp hempty)
    rw [(Parsers.outline_root h).1] at hleaves
    obtain ⟨mid, hstatements, -⟩ := course_part_iff.mp hleaves
    obtain rfl := List.length_eq_zero_iff.mp (Nat.le_zero.mp (hstatements.length_le rfl))
    exact course_kept_iff.mp hstatements
  iterate 7 exact hbody (by simp [typeOutlines])
  split at hbinding
  · obtain ⟨value, -, hvalue⟩ := (Option.any_eq_true _ _).mp hbinding
    exact ⟨value, declared_of_declaredBy hvalue⟩
  · cases hbinding

end Typestrip.TypeScript
