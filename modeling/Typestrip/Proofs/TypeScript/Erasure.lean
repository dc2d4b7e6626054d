import Typestrip.Proofs.TypeScript.Annotations
import Typestrip.Proofs.TypeScript.Forms
import Typestrip.Proofs.TypeScript.Refusals

/-!
# Annotations are erased without a trace

A source that is a variable declaration or a function declaration has the same JavaScript with type
annotations as without them (`Transpiler.transform_annotated`), unless rules nest too deeply in the
source with annotations. The two sources are parsed side by side as versions of each other
(`Grammar.Versions`). They meet in the declaration: in front of the value of the variable and in
front of the statements of the body. From there both parses come back to the program, where what is
kept of them is the same.
-/

namespace Typestrip.TypeScript

open Grammar

/-! ## The first statement of a program -/

section Program

variable {V : Versions} {rules : Rules} {i depth : Nat} {d : Char} {cs cs' : List Char} {o : Outline}
  {ahead : List Outline}

/-- A program consists of one statement. -/
theorem leaves_program_of_statement {outlines : Nat → Option Outline}
    (hd : Unicode.isSpace d = false)
    (hempty : Leaves outlines (.repetition nextOutline) [] (some []))
    (hrule : Leaves outlines (.rule (some 9)) (d :: cs) (some [])) :
    Leaves outlines programOutline (d :: cs) (some []) := by
  have hnext : Leaves outlines nextOutline (d :: cs) (some []) :=
    .part (blanks_of_not hd) trivial (.part (.kept hrule) trivial .done)
  exact .part (.kept (.round hnext (Nat.succ_pos _) trivial hempty)) trivial
    (.part (course_blanks_iff.mpr rfl) trivial .done)

/-- A program consists of a declaration. -/
theorem leaves_program (hdeclared : Declared rules i d o ahead) (hd : Unicode.isSpace d = false)
    (hempty : Leaves (outlineOf rules) (.repetition nextOutline) [] (some []))
    (hleaves : Leaves (outlineOf rules) o (d :: cs) (some [])) :
    Leaves (outlineOf rules) programOutline (d :: cs) (some []) ∧
      Leaves (outlineOf rules) (.sequence [.kept (.rule (some 9))]) (d :: cs) (some []) := by
  obtain ⟨front, back, hstatement, -, hfront⟩ := hdeclared
  have hrule : Leaves (outlineOf rules) (.rule (some 9)) (d :: cs) (some []) :=
    .rule hstatement (Course.behind (.alternative hleaves) fun p hp =>
      Outline.course_of_refuses (hfront p hp).1 cs)
  exact ⟨leaves_program_of_statement hd hempty hrule, .part (.kept hrule) trivial .done⟩

/-- Both versions of a program meet in its first statement, which is a declaration. -/
theorem program_meets (hdeclared : Declared V.rules i d o ahead)
    (henters : V.Enters (.kept (.rule (some 9)) :: o :: ahead))
    (hblanks : blanksOutline.clear (.kept (.rule (some 9)) :: o :: ahead) = true)
    (hd : Unicode.isSpace d = false) (ha : V.Before (d :: cs)) (hb : V.Before (d :: cs'))
    (hmeets : V.Meets depth ahead o (d :: cs) (d :: cs'))
    (hempty : Leaves (outlineOf V.rules) (.repetition nextOutline) [] (some []))
    (hleaves : Leaves (outlineOf V.rules) o (d :: cs') (some [])) :
    V.Meets (depth + 1) (.kept (.repetition nextOutline) :: .kept (.rule (some 9)) :: o :: ahead)
      programOutline (d :: cs) (d :: cs') := by
  obtain ⟨hprogram, hrest⟩ := leaves_program hdeclared hd hempty hleaves
  obtain ⟨front, back, hstatement, -, hfront⟩ := hdeclared
  have halternatives : V.Alternatives depth (o :: ahead) (front ++ o :: back) (d :: cs)
      (d :: cs') := by
    refine (Versions.Alternatives.alternative (hmeets.ask ha hb) back).behind henters.tail ha hb
      fun p hp => ⟨(hfront p hp).2, fun h => ?_⟩
    simp only [List.mem_cons, List.not_mem_nil, or_false] at h
    rcases h with rfl | rfl <;> exact Outline.course_of_refuses (hfront p hp).1 _
  have hrule : V.Meets (depth + 1) (o :: ahead) (.kept (.rule (some 9))) (d :: cs) (d :: cs') :=
    (Versions.Meets.choice halternatives rfl).rule hstatement rfl rfl
  have hnext : V.Meets (depth + 1) (.kept (.rule (some 9)) :: o :: ahead) nextOutline (d :: cs)
      (d :: cs') :=
    .sequence ((Versions.Parts.meet (hrule.ask ha hb) hrest).passed henters hblanks ha hb
      (blanks_of_not hd) (blanks_of_not hd) nofun) rfl rfl ha hb
  have hstatements : V.Meets (depth + 1) (.kept (.rule (some 9)) :: o :: ahead)
      (.kept (.repetition nextOutline)) (d :: cs) (d :: cs') :=
    hnext.repetition rfl rfl ha hb
  exact .sequence (.meet (hstatements.ask ha hb) hprogram) rfl rfl ha hb

end Program

/-! ## Two versions of a source -/

/-- The bodies of the rules for types. -/
def typeBodies (rules : Rules) (slot : Nat) : Option Outline :=
  if slot ≤ 6 then outlineOf rules slot else none

section

variable {rules : Rules} {slot : Nat} {o : Outline}

theorem outlineOf_of_typeBodies (h : typeBodies rules slot = some o) :
    slot ≤ 6 ∧ outlineOf rules slot = some o := by
  unfold typeBodies at h
  split at h
  · next hslot => exact ⟨hslot, h⟩
  · cases h

variable (B : TypeRules (outlineOf rules))

include B

theorem TypeRules.typeBodies : TypeRules (typeBodies rules) :=
  ⟨B.parens, B.brackets, B.braces, B.group, B.angles, B.primary, B.type⟩

/-- Nothing stands in a type that does not stand in the bodies of the rules for types. -/
theorem TypeRules.clear {ahead : List Outline} (h : typeOutlines.all (·.clear ahead) = true)
    (hbody : TypeScript.typeBodies rules slot = some o) : o.clear ahead = true := by
  obtain ⟨hslot, ho⟩ := outlineOf_of_typeBodies hbody
  exact List.all_eq_true.mp h o (B.mem hslot ho)

end

/-- Two versions of a source, of which the first may enter the rules for types. -/
def versions {parsers : Parsers} {member : Matcher → Prop} (F : Family parsers.program.rules member)
    (hid : Identified member) (limit : Nat) (first second common : List Char) : Versions where
  rules := parsers.program.rules
  limit := limit
  member := member
  family := F
  identified := hid
  bodies := typeBodies parsers.program.rules
  known h := (outlineOf_of_typeBodies h).2
  first := first
  second := second
  common := common

/-- The only fatal failure of a program is that rules nest too deeply. -/
theorem Parsers.isTooDeep_of_isFatal {parsers : Parsers} (hparsers : Parsers.compiled = .ok parsers)
    {options : Options} {source : List Char} {e : ParseError}
    (hparse : parsers.program.parse options source = .error e) (he : e.isFatal = true) : e.IsTooDeep := by
  cases e with
  | tooDeep => trivial
  | unresolved name =>
    have hgrounded := (Parsers.sound hparsers).1.grounded hparse (by rintro _ ⟨⟩)
    rcases hgrounded _ (ParseError.part_iff_below.mpr (.inl rfl)) rfl with
      ⟨pos, expected, h⟩ | ⟨pos, limit, h⟩ <;> cases h
  | _ => cases he

namespace Transpiler

theorem tooDeep_of_isFatal {t : Transpiler} (hparsers : Parsers.compiled = .ok t.parsers)
    {source : List Char} {e : ParseError} (hparse : t.parsers.program.parse t.options source = .error e)
    (he : e.isFatal = true) : (t.transform source).TooDeep := by
  have hdeep := Parsers.isTooDeep_of_isFatal hparsers hparse he
  rw [transform, hparse]
  cases e with
  | tooDeep => exact Output.tooDeep_of_isTooDeep hdeep source
  | _ => cases he <;> exact hdeep.elim

/-- A source of which the parse has no fatal failure but has the value of that of another source has
the same JavaScript. -/
theorem exists_code {t : Transpiler} (hparsers : Parsers.compiled = .ok t.parsers)
    {source source' : List Char}
    (h : (∃ e, t.parsers.program.parse t.options source = .error e ∧ e.isFatal = true) ∨
      ∃ x y, t.parsers.program.parse t.options source = .ok x ∧
        t.parsers.program.parse t.options source' = .ok y ∧ x.value = y.value)
    (hdeep : ¬ (t.transform source).TooDeep) :
    ∃ code, t.transform source = .success code ∧ t.transform source' = .success code := by
  rcases h with ⟨e, hparse, he⟩ | ⟨x, y, hparse, hparse', hvalue⟩
  · exact absurd (tooDeep_of_isFatal hparsers hparse he) hdeep
  · refine ⟨x.value.flatten, ?_, ?_⟩
    · rw [transform, hparse]
    · rw [transform, hparse', hvalue]

/-- If both versions of a source meet in its first statement, which is a declaration, then they have
the same JavaScript. -/
theorem exists_code_of_meets {t : Transpiler} (hparsers : Parsers.compiled = .ok t.parsers)
    {member : Matcher → Prop} (F : Family t.parsers.program.rules member) (hid : Identified member)
    (hroot : member t.parsers.program.root) {i depth : Nat} {d : Char} {first second common : List Char}
    {o : Outline} {ahead : List Outline} (hdeclared : Declared t.parsers.program.rules i d o ahead)
    (hclear : (blanksOutline :: typeOutlines).all
      (·.clear (.kept (.rule (some 9)) :: o :: ahead)) = true) (hd : Unicode.isSpace d = false)
    (hmeets : (versions F hid t.options.maxDepth (d :: first) (d :: second) common).Meets depth ahead o
      (d :: first ++ common) (d :: second ++ common))
    (hleaves : Leaves (outlineOf t.parsers.program.rules) o (d :: second ++ common) (some []))
    (hdeep : ¬ (t.transform (d :: first ++ common)).TooDeep) :
    ∃ code, t.transform (d :: first ++ common) = .success code ∧
      t.transform (d :: second ++ common) = .success code := by
  obtain ⟨hblanks, htypes⟩ := Bool.and_eq_true_iff.mp hclear
  obtain ⟨hempty, B, -⟩ := Parsers.outlined hparsers
  have hroot' := (Parsers.outline_root hparsers).1
  have hbefore (front : List Char) : common.length < (d :: front ++ common).length := by
    rw [List.cons_append, List.length_cons, List.length_append]
    omega
  have hprogram := program_meets (V := versions F hid t.options.maxDepth _ _ common) hdeclared
    (B.clear htypes) hblanks hd (hbefore first) (hbefore second) hmeets hempty hleaves
  have hall := (leaves_program hdeclared hd hempty hleaves).1
  rw [← hroot'] at hprogram hall
  exact exists_code hparsers (hprogram.parse rfl rfl hroot (by rw [hroot']; rfl) hall) hdeep

end Transpiler

/-! ## Declarations as sources -/

/-- A variable declaration. -/
def bindingText (x : List Char) (t : Option (List Char)) (e : List Char) : List Char :=
  ['l', 'e', 't', ' '] ++ x ++ annotationText t ++ [' ', '=', ' '] ++ e ++ [';']

/-- A function declaration with one parameter. -/
def functionText (f x : List Char) (t u : Option (List Char)) (body : List Char) : List Char :=
  ['f', 'u', 'n', 'c', 't', 'i', 'o', 'n', ' '] ++ f ++ ['('] ++ x ++ annotationText t ++ [')'] ++
    annotationText u ++ [' ', '{'] ++ body ++ ['}']

/-- A node by itself matches all of a text under some nesting limit. -/
def Parsers.Accepts (parsers : Parsers) (m? : Option Matcher) (text : List Char) : Prop :=
  ∃ m options s, m? = some m ∧ options.matchAll = true ∧
    (⟨m, parsers.program.rules⟩ : Parser).parse options text = .ok s

/-- Checks that a node by itself matches all of a text under the nesting limit that is the default. -/
def Parsers.accepts (parsers : Parsers) (m? : Option Matcher) (text : List Char) : Bool :=
  m?.any fun m => ((⟨m, parsers.program.rules⟩ : Parser).parse { matchAll := true } text).isOk

theorem Parsers.accepts_of_check {parsers : Parsers} {m? : Option Matcher} {text : List Char}
    (h : parsers.accepts m? text = true) : parsers.Accepts m? text := by
  obtain ⟨m, hm, hok⟩ := (Option.any_eq_true _ _).mp h
  cases hparse : (⟨m, parsers.program.rules⟩ : Parser).parse { matchAll := true } text with
  | ok s => exact ⟨m, _, s, hm, rfl, hparse⟩
  | error e =>
    rw [hparse] at hok
    cases hok

/-- The function declarations among the kinds of a statement. -/
def Parsers.function? (parsers : Parsers) : Option Matcher := parsers.alternative? 5

/-- The variable declarations among the kinds of a statement. -/
def Parsers.binding? (parsers : Parsers) : Option Matcher := parsers.alternative? 8

theorem Parsers.exists_function {parsers : Parsers} (hparsers : Parsers.compiled = .ok parsers) :
    ∃ (n : Node) (m : Matcher), n.form = Form.function ∧
      n.compile (grammar.run {}).2.registry = .ok m ∧ parsers.function? = some m :=
  Parsers.exists_alternative hparsers rfl

theorem Parsers.exists_binding {parsers : Parsers} (hparsers : Parsers.compiled = .ok parsers) :
    ∃ (n : Node) (m : Matcher), n.form = Form.binding ∧
      n.compile (grammar.run {}).2.registry = .ok m ∧ parsers.binding? = some m :=
  Parsers.exists_alternative hparsers rfl

theorem lookup_grammar : (grammar.run {}).2.registry.lookup "type" = some 6 ∧
    (grammar.run {}).2.registry.lookup "statement" = some 9 := by
  decide +kernel

section

variable {parsers : Parsers} {member : Matcher → Prop} {m : Matcher} {m? : Option Matcher}
  {o : Outline} {text : List Char}

theorem Parsers.outline_type (B : TypeRules (outlineOf parsers.program.rules))
    (h : parsers.body? "type" = some m) : m.outline = typeOutline := by
  rw [body?, lookup_grammar.1, Option.bind_some] at h
  have hbody := B.type
  rw [outlineOf, h] at hbody
  exact Option.some.inj hbody

theorem Parsers.outline_alternative {i : Nat} {d : Char} {ahead : List Outline}
    (hdeclared : Declared parsers.program.rules i d o ahead)
    (h : parsers.alternative? i = some m) : m.outline = o := by
  obtain ⟨front, back, hstatement, rfl, -⟩ := hdeclared
  rw [alternative?, body?, lookup_grammar.2, Option.bind_some] at h
  obtain ⟨body, hbody, hm⟩ := Option.bind_eq_some_iff.mp h
  rw [outlineOf, hbody] at hstatement
  obtain ⟨a, ms, rfl, hms⟩ := Matcher.exists_of_core_choice
    (congrArg Outline.core (Option.some.inj hstatement))
  have hoption : _ = (front ++ o :: back)[front.length]? := congrArg (·[front.length]?) hms
  rw [Matcher.children] at hm
  rw [Matcher.outlineAll_eq_map, List.getElem?_map, hm, List.getElem?_append_right le_rfl,
    Nat.sub_self] at hoption
  exact Option.some.inj hoption

/-- What a node accepts is matched to its end. -/
theorem Parsers.Accepts.leaves (h : parsers.Accepts m? text)
    (F : Family parsers.program.rules member) (hid : Identified member)
    (hm : ∀ {m}, m? = some m → member m ∧ m.outline = o) :
    Leaves (outlineOf parsers.program.rules) o text (some []) := by
  obtain ⟨m, options, s, hsome, hall, hparse⟩ := h
  obtain ⟨hmember, rfl⟩ := hm hsome
  exact Parser.leaves_of_parse (p := ⟨m, parsers.program.rules⟩) F hid hmember hall hparse

end

namespace Transpiler

/-- No type contains a variable declaration. -/
theorem clear_binding (value : Outline) : (blanksOutline :: typeOutlines).all
    (·.clear [.kept (.rule (some 9)), bindingOutline value, initOutline value]) = true :=
  rfl

/-- No type contains a function declaration. -/
theorem clear_function : (blanksOutline :: typeOutlines).all
    (·.clear [.kept (.rule (some 9)), functionOutline, .kept (.rule (some 8))]) = true := by
  decide +kernel

section

variable {t : Transpiler} (hparsers : Parsers.compiled = .ok t.parsers) {member : Matcher → Prop}
  (F : Family t.parsers.program.rules member) (hid : Identified member)
  (hroot : member t.parsers.program.root) {f x e body : List Char} (hx : isIdentifier x = true)
  {u v : Option (List Char)}
  (hu : Annotates t.parsers.program.rules (typeBodies t.parsers.program.rules) u)

include hparsers F hid hroot hx hu

theorem exists_code_binding {value : Outline}
    (hdeclared : Declared t.parsers.program.rules 8 'l' (bindingOutline value) [initOutline value])
    (hleaves : Leaves (outlineOf t.parsers.program.rules) (bindingOutline value)
      (bindingText x none e) (some []))
    (hdeep : ¬ (t.transform (bindingText x u e)).TooDeep) :
    ∃ code, t.transform (bindingText x u e) = .success code ∧
      t.transform (bindingText x none e) = .success code := by
  -- the versions part in front of the blank behind the equals sign
  let front (u : Option (List Char)) : List Char :=
    ['e', 't', ' '] ++ x ++ annotationText u ++ [' ', '=']
  let common : List Char := ' ' :: (e ++ [';'])
  have hsource (u : Option (List Char)) : bindingText x u e = 'l' :: front u ++ common := by
    simp [bindingText, front, common]
  have hfront (u : Option (List Char)) : 'l' :: front u ++ common =
      "let".toList ++ ' ' :: (x ++ (annotationText u ++ ' ' :: '=' :: common)) := by
    simp [front]
  have B := (Parsers.outlined hparsers).types
  rw [hsource] at hleaves hdeep
  rw [hsource, hsource]
  have hmeets : (versions F hid t.options.maxDepth ('l' :: front u) ('l' :: front none) common).Meets 0
      [initOutline value] (bindingOutline value) ('l' :: front u ++ common)
      ('l' :: front none ++ common) := by
    rw [hfront] at hleaves
    rw [hfront, hfront]
    exact binding_meets hx rfl (B.clear rfl) hu hleaves
  exact exists_code_of_meets hparsers F hid hroot hdeclared (clear_binding value) rfl hmeets hleaves
    hdeep

theorem exists_code_function (hf : isIdentifier f = true)
    (hv : Annotates t.parsers.program.rules (typeBodies t.parsers.program.rules) v)
    (hleaves : Leaves (outlineOf t.parsers.program.rules) functionOutline
      (functionText f x none none body) (some []))
    (hdeep : ¬ (t.transform (functionText f x u v body)).TooDeep) :
    ∃ code, t.transform (functionText f x u v body) = .success code ∧
      t.transform (functionText f x none none body) = .success code := by
  -- the versions part in front of the body behind its opening brace
  let front (u v : Option (List Char)) : List Char :=
    ['u', 'n', 'c', 't', 'i', 'o', 'n', ' '] ++ f ++ ['('] ++ x ++ annotationText u ++ [')'] ++
      annotationText v ++ [' ', '{']
  let common : List Char := body ++ ['}']
  have hsource (u v : Option (List Char)) :
      functionText f x u v body = 'f' :: front u v ++ common := by
    simp [functionText, front, common]
  have hfront (u v : Option (List Char)) : 'f' :: front u v ++ common =
      "function".toList ++ ' ' :: (f ++ '(' :: (x ++ (annotationText u ++ ')' ::
        (annotationText v ++ ' ' :: '{' :: common)))) := by
    simp [front]
  have outlined := Parsers.outlined hparsers
  have B := outlined.types
  rw [hsource] at hleaves hdeep
  rw [hsource, hsource]
  have hmeets : (versions F hid t.options.maxDepth ('f' :: front u v) ('f' :: front none none)
      common).Meets 1 [.kept (.rule (some 8))] functionOutline ('f' :: front u v ++ common)
      ('f' :: front none none ++ common) := by
    rw [hfront] at hleaves
    rw [hfront, hfront]
    exact function_meets hf hx outlined.block B.typeBodies (B.clear rfl) hu hv hleaves
  exact exists_code_of_meets hparsers F hid hroot outlined.function clear_function rfl hmeets hleaves
    hdeep

end

/-- Annotations leave no trace in the JavaScript of a variable declaration and of a function
declaration: whatever the annotations are, as long as they are types, the output is that for the
source without them, unless rules nest too deeply in the source with them. -/
theorem transform_annotated {s : Settings} {t : Transpiler} (ht : ofSettings s = .ok t) :
    (∀ {x type e : List Char}, isIdentifier x = true →
      t.parsers.Accepts (t.parsers.body? "type") type →
      t.parsers.Accepts t.parsers.binding? (bindingText x none e) →
      ¬ (t.transform (bindingText x (some type) e)).TooDeep →
      ∃ code, t.transform (bindingText x (some type) e) = .success code ∧
        t.transform (bindingText x none e) = .success code) ∧
    ∀ {f x body : List Char} {param result : Option (List Char)}, isIdentifier f = true →
      isIdentifier x = true →
      (∀ type, type ∈ param ∨ type ∈ result → t.parsers.Accepts (t.parsers.body? "type") type) →
      t.parsers.Accepts t.parsers.function? (functionText f x none none body) →
      ¬ (t.transform (functionText f x param result body)).TooDeep →
      ∃ code, t.transform (functionText f x param result body) = .success code ∧
        t.transform (functionText f x none none body) = .success code := by
  obtain ⟨parsers, hparsers, rfl⟩ := eq_of_ofSettings ht
  obtain ⟨member, F, hid, hroot, -⟩ := Parsers.exists_family hparsers
  obtain ⟨-, B, -, hfunction, value, hbinding⟩ := Parsers.outlined hparsers
  have hannotates {t : Option (List Char)}
      (h : ∀ type ∈ t, parsers.Accepts (parsers.body? "type") type) :
      Annotates parsers.program.rules (typeBodies parsers.program.rules) t := fun type htype =>
    ⟨B, B.typeBodies, .rule B.type ((h type htype).leaves F hid fun hm =>
      ⟨Parsers.member_body F hm, Parsers.outline_type B hm⟩)⟩
  have halternative {i : Nat} {d : Char} {o : Outline} {ahead : List Outline} {text : List Char}
      (hdeclared : Declared parsers.program.rules i d o ahead)
      (h : parsers.Accepts (parsers.alternative? i) text) :
      Leaves (outlineOf parsers.program.rules) o text (some []) :=
    h.leaves F hid fun hm =>
      ⟨Parsers.member_alternative F hm, Parsers.outline_alternative hdeclared hm⟩
  constructor
  · intro x type e hx htype haccepts hdeep
    refine exists_code_binding hparsers F hid hroot hx (hannotates ?_) hbinding
      (halternative hbinding haccepts) hdeep
    intro type' htype'
    obtain rfl := Option.some.inj htype'
    exact htype
  · intro f x body param result hf hx htypes haccepts hdeep
    exact exists_code_function hparsers F hid hroot hx
      (hannotates fun type htype => htypes type (.inl htype)) hf
      (hannotates fun type htype => htypes type (.inr htype))
      (halternative hfunction haccepts) hdeep

/-- An array of a generic type. -/
def genericArray : List Char := ['A', '<', 'b', '>', '[', ']']

theorem annotation_compiled : Parsers.compiled.toOption.any (fun parsers =>
    parsers.accepts (parsers.body? "type") genericArray &&
      parsers.accepts parsers.binding? (bindingText ['x'] none ['1']) &&
      parsers.accepts parsers.function? (functionText ['f'] ['x'] none none []) &&
      [bindingText ['x'] (some genericArray) ['1'],
        functionText ['f'] ['x'] (some genericArray) (some genericArray) []].all fun source =>
          (parsers.plain.transform source).diagnostic.isNone) = true := by
  rw [Parsers.compiled_eq]
  decide +kernel

theorem transform_annotated_array : ∃ t : Transpiler, ofSettings {} = .ok t ∧
    t.parsers.Accepts (t.parsers.body? "type") genericArray ∧
    t.parsers.Accepts t.parsers.binding? (bindingText ['x'] none ['1']) ∧
    t.parsers.Accepts t.parsers.function? (functionText ['f'] ['x'] none none []) ∧
    (∃ code, t.transform (bindingText ['x'] (some genericArray) ['1']) = .success code ∧
      t.transform (bindingText ['x'] none ['1']) = .success code) ∧
    ∃ code, t.transform (functionText ['f'] ['x'] (some genericArray) (some genericArray) []) =
        .success code ∧
      t.transform (functionText ['f'] ['x'] none none []) = .success code := by
  obtain ⟨parsers, hparsers⟩ := Parsers.exists_compiled
  have hcheck := annotation_compiled
  rw [hparsers] at hcheck
  simp only [Except.toOption, Option.any_some, Bool.and_eq_true] at hcheck
  obtain ⟨⟨⟨htype, hbinding⟩, hfunction⟩, hsources⟩ := hcheck
  have hnot {source : List Char} (hsource : source ∈ [bindingText ['x'] (some genericArray) ['1'],
      functionText ['f'] ['x'] (some genericArray) (some genericArray) []]) :
      ¬ ((⟨parsers, optionsOf {}⟩ : Transpiler).transform source).TooDeep :=
    Parsers.not_tooDeep_of_plain hparsers (List.all_eq_true.mp hsources source hsource)
  have ht := ofSettings_eq hparsers {}
  have htypes : ∀ type, type ∈ some genericArray ∨ type ∈ some genericArray →
      parsers.Accepts (parsers.body? "type") type := by
    rintro type (h | h) <;> obtain rfl := Option.some.inj h <;>
      exact Parsers.accepts_of_check htype
  refine ⟨_, ht, Parsers.accepts_of_check htype, Parsers.accepts_of_check hbinding,
    Parsers.accepts_of_check hfunction, ?_, ?_⟩
  · exact (transform_annotated ht).1 (by decide) (Parsers.accepts_of_check htype)
      (Parsers.accepts_of_check hbinding) (hnot List.mem_cons_self)
  · exact (transform_annotated ht).2 (by decide) (by decide) htypes
      (Parsers.accepts_of_check hfunction) (hnot (List.mem_cons_of_mem _ List.mem_cons_self))

end Transpiler

end Typestrip.TypeScript
