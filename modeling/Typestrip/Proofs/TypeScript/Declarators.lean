import Typestrip.Proofs.Grammar.Extents
import Typestrip.Proofs.TypeScript.Bodies
import Typestrip.Proofs.TypeScript.Erasure
import Typestrip.Proofs.TypeScript.Heads

/-!
# Declarations of several variables

The grammar knows variable declarations with one name. Where that variable has a value, the variables
behind it belong to the value, which goes on behind a comma, and all of them are declared by the one
statement that is emitted (`Transpiler.transform_declarators`). Where it has none, the declaration ends
in front of the comma, and what follows is taken for a statement of its own
(`Transpiler.transform_split_declaration`).

A source is taken apart from the front: the first statement is a variable declaration, because the
kinds of statements that are tried before do not begin as it does, and each of its parts ends where its
outline says.
-/

namespace Typestrip.TypeScript

open Grammar Grammar.Tree Regex

/-! ## The first statement -/

/-- The numbers of the rules. -/
def slots : String → Option Nat := (grammar.run {}).2.registry.lookup

theorem Parsers.depicts {parsers : Parsers} (h : Parsers.compiled = .ok parsers) :
    Depicts slots (outlineOf parsers.program.rules) Form.bodies := by
  have hdepicts := Parser.depicts (Parsers.eq_of_compiled h).1
  rwa [grammar_forms.1] at hdepicts

namespace Form

/-- The kinds of a statement that are tried before a variable declaration. -/
def beforeBinding : List Node := [comment] ++ erased ++ [function, conditional, loop]

/-- The kinds of a statement that are tried after a variable declaration. -/
def behindBinding : List Node := [returned, Grammar.Form.reference "block", empty, standing]

theorem statement_eq :
    statement = Grammar.Form.choice (beforeBinding ++ binding :: behindBinding) := rfl

/-- No kind of a statement that is tried before begins as a variable declaration does. -/
theorem refuses_beforeBinding : (['l', 'c', 'v'].all fun d =>
    (Node.outlineAll slots beforeBinding).all (·.refuses d)) = true := by
  rw [Node.outlineAll_eq_by]
  decide +kernel

theorem outline_blanks : blanks.outline slots = blanksOutline := by
  have hregex : regexOutline "\\s*" = blanksOutline := by
    rw [regexOutline, ofSource?_blanks]
    rfl
  exact hregex

end Form

/-- The words that a variable declaration begins with. -/
def declarationWords : List (List Char) := ["let", "const", "var"].map String.toList

theorem exists_of_declarationWords {word : List Char} (h : word ∈ declarationWords) :
    ∃ d cs, word = d :: cs ∧ d ∈ ['l', 'c', 'v'] ∧ Unicode.isSpace d = false := by
  simp only [declarationWords, List.map_cons, List.map_nil, List.mem_cons, List.not_mem_nil,
    or_false] at h
  rcases h with rfl | rfl | rfl <;> exact ⟨_, _, rfl, by decide, rfl⟩

/-- A variable declaration is declared by each of its words. -/
theorem Parsers.declared_binding {parsers : Parsers} (h : Parsers.compiled = .ok parsers) :
    ∃ value, Form.binding.outline slots = bindingOutline value ∧ ∀ d ∈ ['l', 'c', 'v'],
      Declared parsers.program.rules 8 d (bindingOutline value) [initOutline value] := by
  obtain ⟨value, hbinding⟩ := (Parsers.outlined h).binding
  obtain ⟨n, m, hn, hm, hsome⟩ := Parsers.exists_binding h
  have houtline := Parsers.outline_alternative hbinding hsome
  rw [Node.outline_of_compile hm, ← Node.outline_form, hn] at houtline
  refine ⟨value, houtline, fun d hd => ?_⟩
  obtain ⟨front, back, hstatement, hlen, hfront⟩ := hbinding
  refine ⟨front, back, hstatement, hlen, fun p hp => ⟨?_, (hfront p hp).2⟩⟩
  -- the alternatives in front are those that are written down
  obtain ⟨i, hi, hrule⟩ := Parsers.depicts h (rfl : Form.bodies "statement" = some Form.statement)
  obtain rfl : 9 = i := Option.some.inj (lookup_grammar.2.symm.trans hi)
  have hchoice : Form.statement.outline slots = .choice (front ++ bindingOutline value :: back) :=
    Option.some.inj (hrule.symm.trans hstatement)
  rw [Form.statement_eq] at hchoice
  have hparts : Node.outlineAll slots (Form.beforeBinding ++ Form.binding :: Form.behindBinding) =
      front ++ bindingOutline value :: back := Outline.choice.inj hchoice
  rw [Node.outlineAll_eq_map, List.map_append, ← Node.outlineAll_eq_map] at hparts
  obtain ⟨rfl, -⟩ := List.append_inj hparts (by rw [hlen, Node.outlineAll_eq_map]; rfl)
  have hrefuses := List.all_eq_true.mp Form.refuses_beforeBinding d hd
  exact List.all_eq_true.mp hrefuses p hp

namespace Form

open Grammar.Form

variable {t u : Tree} {n : Node} {cs rest : List Char} {d : Char} {outlines : Nat → Option Outline}

/-- The statements that a program is rendered as. -/
def emitted : Tree → List String
  | .branch _ (.branch _ us :: _) => lines us
  | _ => []

/-- Of the statements of a program there is a line for each. -/
theorem value_of_emitted (h : t.Of bodies program) : t.value =
    if (emitted t).isEmpty then .text "" else .text ("\n".intercalate (emitted t) ++ "\n") := by
  obtain ⟨us, b, rfl, -, hvalue⟩ := exists_of_program h
  exact hvalue

/-- Of two rows that are the same, one of two members stands in front of the other, or both are one. -/
theorem mem_or_mem_or_eq {α : Type} {front front' back back' : List α} {x y : α}
    (h : front ++ x :: back = front' ++ y :: back') : x ∈ front' ∨ y ∈ front ∨ x = y := by
  rcases List.append_eq_append_iff.mp h with ⟨mid, rfl, hmid⟩ | ⟨mid, rfl, hmid⟩
  · cases mid with
    | nil => exact .inr (.inr (List.cons.inj hmid).1)
    | cons z mid =>
      obtain rfl := (List.cons.inj hmid).1
      exact .inl (List.mem_append_right _ List.mem_cons_self)
  · cases mid with
    | nil => exact .inr (.inr (List.cons.inj hmid).1.symm)
    | cons z mid =>
      obtain rfl := (List.cons.inj hmid).1
      exact .inr (.inl (List.mem_append_right _ List.mem_cons_self))

/-- The alternative that matched is the first one that can match. -/
theorem exists_of_alternative {a : Attributes} {ns front back : List Node} {rest' : List Char}
    (hd : Depicts slots outlines bodies) (ha : a.nullable = false) (hns : ns = front ++ n :: back)
    (hfront : ∀ m ∈ front, Leaves outlines (m.outline slots) cs none)
    (hn : Leaves outlines (n.outline slots) cs (some rest'))
    (h : t.Reads bodies (.choice a ns) cs rest) :
    ∃ u : Tree, t = .branch (.choice a ns) [u] ∧ u.Reads bodies n cs rest := by
  obtain ⟨front', m, back', u, hns', rfl, hu, hfailed⟩ := h.exists_alternative hd ha
  rw [Node.outlineAll_eq_map] at hfailed
  rcases mem_or_mem_or_eq (hns.symm.trans hns') with hmem | hmem | rfl
  · have hnone := hfailed _ (List.mem_map_of_mem hmem)
    cases hn.unique hnone
  · cases (hu.leaves hd).unique (hfront m hmem)
  · exact ⟨u, rfl, hu⟩

/-- A program that one kind of a statement matches, and none that is tried before, is a statement of
this kind, and what is emitted is its code. -/
theorem exists_of_only_statement {front back : List Node} (hd : Depicts slots outlines bodies)
    (hspace : Unicode.isSpace d = false)
    (hkinds : statement = Grammar.Form.choice (front ++ n :: back))
    (hfront : ∀ m ∈ front, Leaves outlines (m.outline slots) (d :: cs) none)
    (hn : Leaves outlines (n.outline slots) (d :: cs) (some []))
    (h : t.Reads bodies program (d :: cs) []) :
    ∃ u : Tree, u.Reads bodies n (d :: cs) [] ∧ u.Within t ∧
      emitted t = [u.value.flatten].filter (!·.isEmpty) := by
  obtain ⟨ts, rfl, hts⟩ | ⟨hnull, -⟩ := h.exists_parts
  · obtain _ | ⟨hbody, _ | ⟨hend, _ | _⟩⟩ := hts
    obtain ⟨us, rfl, hus, hsome⟩ := hbody.exists_rounds rfl
    have hblanks {t : Tree} {rest : List Char} (h : t.Reads bodies blanks (d :: cs) rest) :
        d :: cs = rest := by
      have hstart : Leaves outlines blanksOutline (d :: cs) (some (d :: cs)) := blanks_of_not hspace
      have hleaves := h.leaves hd
      rw [outline_blanks] at hleaves
      exact Option.some.inj (hstart.unique hleaves)
    obtain _ | ⟨first, us⟩ := us
    · cases hus
      cases hblanks hend
    obtain _ | ⟨hfirst, hus⟩ := hus
    obtain ⟨ts, rfl, hts⟩ | ⟨hnull, -⟩ := hfirst.exists_parts
    · obtain _ | ⟨hgap, _ | ⟨hstatement, _ | _⟩⟩ := hts
      obtain rfl := hblanks hgap
      obtain ⟨v, rfl, hv⟩ := hstatement.exists_body rfl rfl
      rw [hkinds] at hv
      obtain ⟨u, rfl, hu⟩ := exists_of_alternative hd rfl rfl hfront hn hv
      -- the statement leaves nothing to further ones
      obtain rfl := Option.some.inj (hn.unique (hu.leaves hd))
      obtain rfl : us = [] := by
        obtain _ | ⟨next, us⟩ := us
        · rfl
        · obtain _ | ⟨hnext, -⟩ := hus
          have htext := (List.append_eq_nil_iff.mp hnext.eq_append.symm).1
          exact absurd htext (hsome _ (List.mem_cons_of_mem _ List.mem_cons_self))
      refine ⟨u, hu, ?_, rfl⟩
      exact .inside List.mem_cons_self (.inside List.mem_cons_self
        (.inside (List.mem_cons_of_mem _ List.mem_cons_self)
          (.inside List.mem_cons_self (.of_part List.mem_cons_self))))
    · cases hnull
  · cases hnull

/-- A program that begins as a variable declaration does and can be matched by one is one, and one
statement is emitted. -/
theorem exists_binding_of_program (hd : Depicts slots outlines bodies)
    (hletter : d ∈ ['l', 'c', 'v']) (hspace : Unicode.isSpace d = false)
    (hbinding : Leaves outlines (binding.outline slots) (d :: cs) (some []))
    (h : t.Reads bodies program (d :: cs) []) :
    ∃ u : Tree, u.Reads bodies binding (d :: cs) [] ∧ u.Within t ∧ emitted t = [u.value.flatten] := by
  have hfront : ∀ m ∈ beforeBinding, Leaves outlines (m.outline slots) (d :: cs) none := by
    have hrefuses := List.all_eq_true.mp refuses_beforeBinding d hletter
    rw [Node.outlineAll_eq_map] at hrefuses
    exact fun m hm => Outline.course_of_refuses
      (List.all_eq_true.mp hrefuses _ (List.mem_map_of_mem hm)) cs
  obtain ⟨u, hu, hwithin, hemitted⟩ :=
    exists_of_only_statement hd hspace statement_eq hfront hbinding h
  have hne := (ended_of_binding hu.of).ne_empty
  refine ⟨u, hu, hwithin, hemitted.trans (List.filter_cons_of_pos ?_)⟩
  rw [Bool.not_eq_true', ← Bool.not_eq_true, String.isEmpty_iff]
  exact hne

/-! ## The parts of a declaration -/

/-- What is kept of a regular expression is its match. -/
theorem flatten_of_kept_regex {name source : String} (h : t.Of bodies (capture name (regex source))) :
    t.value.flatten = String.ofList t.text := by
  obtain ⟨u, hu, rfl, hvalue⟩ := h.exists_of_capture
  obtain ⟨text, rfl, hvalue'⟩ := value_of_regex hu
  rw [hvalue, hvalue']
  rfl

theorem flatten_of_name (h : t.Of bodies (capture "name" (choice [identifier, reference "group"]))) :
    t.value.flatten = String.ofList t.text := by
  obtain ⟨u, hu, rfl, hvalue⟩ := h.exists_of_capture
  obtain ⟨n, hn, v, rfl, hv⟩ := hu.exists_alternative rfl
  have hsame : v.value = .text (String.ofList v.text) := by
    simp only [List.mem_cons, List.not_mem_nil, or_false] at hn
    rcases hn with rfl | rfl
    · obtain ⟨text, rfl, hvalue⟩ := value_of_regex hv
      exact hvalue
    · obtain ⟨rule, hrule, w, rfl, hw, hvalue⟩ := exists_of_group hv
      obtain ⟨-, -, -, -, -, -, hw⟩ := exists_of_enclosed hrule hw
      rw [hvalue, hw, text_branch_singleton, text_branch_singleton]
  rw [hvalue, text_recast, text_branch_singleton]
  exact congrArg Value.flatten hsame

/-- How the value of a variable is rendered. -/
def initialized : Option Value → String
  | some v => " = " ++ v.flatten
  | none => ""

/-- A variable declaration is rendered as its word, its name and its value. -/
theorem exists_of_declaration {rules : Rules} {value : Outline} {word x c : List Char}
    {type : Option (List Char)} {k : Nat} (hd : Depicts slots (outlineOf rules) bodies)
    (houtline : binding.outline slots = bindingOutline value) (hword : word ∈ declarationWords)
    (hx : isIdentifier x = true) (hc : Closes k (d :: c)) (hbang : d ≠ '!')
    (htype : Annotates rules (outlineOf rules) type)
    (h : t.Reads bodies binding (word ++ ' ' :: (x ++ (annotationText type ++ d :: c))) rest) :
    ∃ (i s : Tree) (mid : List Char), i.Within t ∧ i.Reads bodies (capture "init" (nullable initializer)) (d :: c) mid ∧
      s.Reads bodies terminator mid rest ∧
      t.value = .text (String.ofList word ++ " " ++ String.ofList x ++
        initialized (i.value.field? "value") ++ ";") := by
  have hparts : Node.outlineAll slots _ = _ := Outline.sequence.inj houtline
  simp only [Node.outlineAll, bindingFront, List.cons_append, List.nil_append, List.cons.injEq,
    and_true] at hparts
  obtain ⟨hkind, hblanks, hname, hmark, htyped, -, -⟩ := hparts
  have hhead (cs : List Char) :
      Leaves (outlineOf rules) (.kept (scan bindingHead)) (word ++ ' ' :: cs) (some (' ' :: cs)) := by
    simp only [declarationWords, List.map_cons, List.map_nil, List.mem_cons, List.not_mem_nil,
      or_false] at hword
    rcases hword with rfl | rfl | rfl <;> exact .kept (course_scan_iff.mpr rfl)
  obtain ⟨ts, rfl, hts⟩ | ⟨hnull, -⟩ := h.exists_parts
  · obtain ⟨kind, ts, rfl, hkind, hts⟩ := hts.exists_part hd (hkind ▸ hhead _)
    obtain ⟨b, ts, rfl, -, hts⟩ := hts.exists_part hd (hblanks ▸ someBlanks_course hx)
    obtain ⟨name, ts, rfl, hname, hts⟩ := hts.exists_part hd
      (hname ▸ name_course (rest?_identifier hx (hc.ends_annotated type)))
    obtain ⟨m, ts, rfl, -, hts⟩ := hts.exists_part hd (hmark ▸ bang_course type hbang)
    obtain ⟨a, ts, rfl, -, hts⟩ := hts.exists_part hd
      (htyped ▸ (annotation_course hc htype).leaves)
    obtain _ | ⟨hi, _ | ⟨hs, _ | _⟩⟩ := hts
    refine ⟨_, _, _, .of_part (by simp), hi, hs, ?_⟩
    obtain ⟨_, _, _, _, _, _, _, hparts, hkind', hname', -, hvalue⟩ := exists_of_binding h.of
    cases hparts
    have hnormal : Text.normalizeSpace (String.ofList word) = String.ofList word := by
      simp only [declarationWords, List.map_cons, List.map_nil, List.mem_cons, List.not_mem_nil,
        or_false] at hword
      rcases hword with rfl | rfl | rfl <;> decide
    rw [hvalue, flatten_of_kept_regex hkind', flatten_of_name hname',
      ← List.append_cancel_right hkind.eq_append, ← List.append_cancel_right hname.eq_append, hnormal]
    rfl
  · cases hnull

/-! ## The end of a value -/

/-- Something was matched that does not end in a semicolon. -/
def Unended (t : Tree) : Prop := ∃ front c, t.text = front ++ [c] ∧ c ≠ ';'

theorem Unended.of_last (h : Unended u) (n : Node) (ts : List Tree) :
    Unended (.branch n (ts ++ [u])) := by
  obtain ⟨front, c, htext, hc⟩ := h
  refine ⟨textAll ts ++ front, c, ?_, hc⟩
  rw [Tree.text, textAll_append, textAll_cons, textAll_nil, List.append_nil, htext,
    List.append_assoc]

theorem Unended.recast (h : Unended t) (n : Node) : Unended (t.recast n) := by
  rwa [Unended, text_recast]

/-- Matches of a regular expression take something and do not end in a semicolon. -/
def unendedSource (source : String) : Bool :=
  match Expr.ofSource? (anchoredSource source) with
  | some (.seq (.look .textStart) e) => e.takes && !e.mayEnd ';'
  | _ => false

theorem unended_of_regex {source : String} (hsource : unendedSource source = true)
    (h : t.Of bodies (regex source)) : Unended t := by
  cases h with
  | skipped hnull => cases hnull
  | @regex _ _ _ cs n hregex hmatch =>
    rw [unendedSource, hregex] at hsource
    split at hsource
    · next e he =>
      obtain rfl := Option.some.inj he
      rw [Bool.and_eq_true, Bool.not_eq_true'] at hsource
      obtain ⟨y, hy, hleads⟩ := Expr.exists_leads_of_search? hmatch
      have hlt := Expr.length_lt_of_takes hsource.1 hy
      have hlen := hleads.length
      obtain ⟨front, c, htext⟩ : ∃ front c, cs.take n = front ++ [c] := by
        rcases List.eq_nil_or_concat (cs.take n) with hnil | ⟨front, c, htext⟩
        · rw [hnil, List.length_nil] at hlen
          omega
        · exact ⟨front, c, by rw [htext, List.concat_eq_append]⟩
      refine ⟨front, c, htext, ?_⟩
      rintro rfl
      have hend := Expr.mayEnd_of_mem_ends hy hleads ';' (by rw [htext, List.getLast?_concat])
      rw [hsource.2] at hend
      cases hend
    · cases hsource

theorem unended_sources : [stringSource, "/\\*[\\s\\S]*?\\*/", wordSource, regexSource].all
    unendedSource = true := by
  decide +kernel

theorem unended_of_group (h : t.Of bodies (reference "group")) : Unended t := by
  obtain ⟨rule, hrule, u, rfl, hu, -⟩ := exists_of_group h
  obtain ⟨opening, closing, items, rfl, hmarks, -⟩ := exists_of_enclosed hrule hu
  have hclosing : Unended (.leaf (literal closing) closing.toList) := by
    simp only [List.mem_cons, Prod.mk.injEq, List.not_mem_nil, or_false] at hmarks
    rcases hmarks with ⟨-, rfl⟩ | ⟨-, rfl⟩ | ⟨-, rfl⟩ <;> exact ⟨[], _, rfl, by decide⟩
  have hinside := hclosing.of_last (enclosed opening closing) [.leaf (literal opening) opening.toList,
    .branch (repetition (choice [string, reference "group", chunk])) items]
  exact ((hinside.of_last _ []).of_last _ []).of_last _ []

theorem unended_of_arrowHead (h : t.Of bodies arrowHead) : Unended t := by
  obtain ⟨o, b, p, b', c, r, b'', a, rfl, -⟩ := exists_of_arrowHead h
  obtain _ | ⟨-, _ | ⟨-, _ | ⟨-, _ | ⟨-, _ | ⟨-, _ | ⟨-, _ | ⟨-, _ | ⟨ha, -⟩⟩⟩⟩⟩⟩⟩⟩ := h.parts
  have harrow : Unended a := by
    cases ha with
    | literal => exact ⟨['='], '>', rfl, by decide⟩
    | skipped hnull => cases hnull
  exact harrow.of_last arrowHead [o, b, p, b', c, r, b'']

theorem unended_of_operand (hn : n ∈ operands) (h : t.Of bodies n) : Unended t := by
  have hsources := unended_sources
  simp only [List.all_cons, List.all_nil, Bool.and_true, Bool.and_eq_true] at hsources
  obtain ⟨hstring, hcomment, hword, hregex⟩ := hsources
  simp only [operands, List.mem_cons, List.not_mem_nil, or_false] at hn
  rcases hn with rfl | rfl | rfl | rfl | rfl | rfl
  · exact unended_of_regex hstring h
  · exact unended_of_regex hcomment h
  · exact unended_of_arrowHead h
  · exact unended_of_group h
  · exact unended_of_regex hword h
  · exact unended_of_regex hregex h

theorem unended_of_joined {lead rest : Node} (h : t.Of bodies (joined lead rest))
    (hrest : ∀ u : Tree, u.Of bodies rest → Unended u) : Unended t := by
  obtain ⟨l, r, rfl, -, hr, -⟩ := exists_of_joined h
  obtain ⟨u, hu, rfl, -⟩ := hr.exists_of_capture
  exact ((hrest u hu).recast _).of_last _ [l]

theorem unended_of_piece (hn : n ∈ pieces) (h : t.Of bodies n) : Unended t := by
  have hoperand (u : Tree) (hu : u.Of bodies (choice operands)) : Unended u := by
    obtain ⟨n, hn, v, rfl, hv⟩ := hu.exists_alternative rfl
    exact (unended_of_operand hn hv).of_last _ []
  simp only [pieces, List.mem_append, List.mem_cons, List.not_mem_nil, or_false] at hn
  rcases hn with hn | rfl | rfl | rfl
  · exact unended_of_operand hn h
  · exact unended_of_joined h hoperand
  · exact unended_of_joined h hoperand
  · exact unended_of_joined h fun u hu => unended_of_joined hu hoperand

theorem unended_of_run {pieces : List Node} (h : t.Of bodies (run pieces))
    (hpieces : ∀ n ∈ pieces, ∀ u : Tree, u.Of bodies n → Unended u) : Unended t := by
  obtain ⟨head, tail, rfl, hall, -⟩ := exists_of_run h
  have hunended : ∀ u ∈ head :: tail, Unended u := fun u hu => by
    obtain ⟨n, hn, hu⟩ := hall u hu
    exact hpieces n hn u hu
  rw [Unended, text_runTree]
  rcases List.eq_nil_or_concat tail with rfl | ⟨front, last, rfl⟩
  · rw [List.flatMap_nil, List.append_nil]
    exact hunended head List.mem_cons_self
  · rw [List.concat_eq_append] at hunended ⊢
    obtain ⟨cs, c, htext, hc⟩ := hunended last (by simp)
    refine ⟨head.text ++ front.flatMap text ++ cs, c, ?_, hc⟩
    rw [List.flatMap_append, List.flatMap_singleton, htext]
    simp only [List.append_assoc]

/-- No expression ends in a semicolon. -/
theorem unended_of_expression {name : String} (h : t.Of bodies (capture name expression)) :
    Unended t := by
  obtain ⟨u, hu, rfl, -⟩ := h.exists_of_capture
  obtain ⟨v, hv, rfl, -⟩ := hu.exists_of_map rfl
  exact ((unended_of_run hv fun n hn w hw => unended_of_piece hn hw).recast _).recast _

/-! ## The value -/

theorem ofSource?_terminator : Expr.ofSource? (anchoredSource "[ \\t]*;") =
    some (.anchored TypeScript.terminator) := by
  decide +kernel

theorem outline_terminator : terminator.outline slots = .optional (scan TypeScript.terminator) := by
  have hregex : regexOutline "[ \\t]*;" = scan TypeScript.terminator := by
    rw [regexOutline, ofSource?_terminator]
    rfl
  exact congrArg Outline.optional hregex

/-- A terminator is a semicolon behind blanks, or nothing. -/
theorem text_of_terminator (h : t.Of bodies terminator) :
    t.text = [] ∨ ∃ gap, t.text = gap ++ [';'] ∧ ∀ c ∈ gap, Unicode.isSpace c = true := by
  cases h with
  | skipped => exact .inl rfl
  | regex hregex hk =>
    obtain rfl := Option.some.inj (ofSource?_terminator.symm.trans hregex)
    obtain ⟨y, hy, hleads⟩ := Expr.exists_leads_of_search? hk
    obtain ⟨gap, z, back, htext, hz, hgap, hy', hback⟩ := Expr.exists_of_seq_leads hy hleads
    obtain ⟨c, rfl, hc⟩ := Expr.exists_of_chars_leads hy' hback
    obtain rfl : c = ';' := by simpa [CharSet.holds_single] using hc
    refine .inr ⟨gap, htext, fun c hc => ?_⟩
    have htake := Expr.mayTake_of_mem_ends hz hgap c hc
    simp only [Expr.mayTake, oneOf, CharSet.holds_union, CharSet.holds_single, Bool.or_eq_true,
      beq_iff_eq] at htake
    rcases htake with rfl | rfl <;> rfl

/-- The value of a variable is all that stands in front of the semicolon. -/
theorem exists_of_valued {i s : Tree} {list mid : List Char} (hd : Depicts slots outlines bodies)
    (hi : i.Reads bodies (capture "init" (nullable initializer))
      (' ' :: '=' :: ' ' :: (list ++ [';'])) mid) (hs : s.Reads bodies terminator mid []) :
    ∃ (v : Tree) (gap : List Char), v.Within i ∧ v.Of bodies (capture "value" expression) ∧
      i.value.field? "value" = some v.value ∧ (∀ c ∈ gap, Unicode.isSpace c = true) ∧
      v.text ++ gap = list.dropWhile Unicode.isSpace := by
  obtain ⟨ts, rfl, hts⟩ | ⟨-, rfl, rfl⟩ := hi.exists_parts
  · have hequals (cs : List Char) : Leaves outlines (.literal ['=']) ('=' :: cs) (some cs) :=
      course_literal_iff.mpr rfl
    have hgap : Leaves outlines blanksOutline (' ' :: (list ++ [';']))
        (some (list.dropWhile Unicode.isSpace ++ [';'])) := by
      refine course_blanks_iff.mpr ?_
      rw [List.dropWhile_cons_of_pos rfl, List.dropWhile_append]
      split
      · next hnil => rw [List.isEmpty_iff.mp hnil]; rfl
      · rfl
    obtain ⟨b, ts, rfl, -, hts⟩ := hts.exists_part hd (outline_blanks ▸ blanks_one rfl)
    obtain ⟨e, ts, rfl, -, hts⟩ := hts.exists_part hd (hequals _)
    obtain ⟨b', ts, rfl, -, hts⟩ := hts.exists_part hd (outline_blanks ▸ hgap)
    obtain _ | ⟨hv, _ | _⟩ := hts
    obtain ⟨_, _, _, _, hparts, -, hvalue⟩ | hskipped := exists_of_initializer hi.of
    · cases hparts
      have htext := hv.eq_append
      rw [hs.eq_append, List.append_nil] at htext
      obtain hnil | ⟨gap, hgap, hspace⟩ := text_of_terminator hs.of
      · -- otherwise the value would end in the semicolon
        obtain ⟨front, c, hlast, hc⟩ := unended_of_expression hv.of
        rw [hnil, List.append_nil, hlast] at htext
        obtain ⟨-, hsame⟩ := List.append_inj' htext rfl
        exact absurd (List.cons.inj hsame).1.symm hc
      · rw [hgap, ← List.append_assoc] at htext
        exact ⟨_, gap, .of_part (by simp), hv.of, hvalue, hspace,
          (List.append_cancel_right htext).symm⟩
    · cases hskipped
  · -- without a value there would be an equals sign behind the declaration
    have hnone : TypeScript.terminator.rest? (' ' :: '=' :: ' ' :: (list ++ [';'])) = none := by
      refine rest?_behind rfl fun d hd => ?_
      obtain rfl := Option.some.inj hd
      decide
    have hskipped : Leaves outlines (.optional (scan TypeScript.terminator))
        (' ' :: '=' :: ' ' :: (list ++ [';'])) (some (' ' :: '=' :: ' ' :: (list ++ [';']))) :=
      .skipped (course_scan_iff.mpr hnone.symm)
    have hend := hs.leaves hd
    rw [outline_terminator] at hend
    cases hend.unique hskipped

/-- In front of the semicolon there is no value. -/
theorem value_of_semicolon {i : Tree} {mid : List Char} (hd : Depicts slots outlines bodies)
    (hi : i.Reads bodies (capture "init" (nullable initializer)) [';'] mid) :
    i.value.field? "value" = none := by
  obtain ⟨ts, rfl, hts⟩ | ⟨-, rfl, -⟩ := hi.exists_parts
  · obtain ⟨b, ts, rfl, -, hts⟩ := hts.exists_part hd (outline_blanks ▸ blanks_of_not rfl)
    obtain _ | ⟨he, -⟩ := hts
    have hequals : Leaves outlines (.literal ['=']) [';'] none := .literalFailed (by decide)
    cases hequals.unique (he.leaves hd)
  · rfl

end Form

/-! ## Lists of variables -/

/-- A variable of a declaration: its name, the type behind it and the value that it begins with. -/
structure Declarator where
  name : List Char
  type : Option (List Char) := none
  value : Option (List Char) := none

namespace Declarator

/-- The variable without its type. -/
def erased (x : Declarator) : Declarator := { x with type := none }

/-- An equals sign with a value, or nothing. -/
def valueText : Option (List Char) → List Char
  | none => []
  | some value => [' ', '=', ' '] ++ value

def text (x : Declarator) : List Char := x.name ++ (annotationText x.type ++ valueText x.value)

/-- Further variables, each behind a comma. -/
def further (xs : List Declarator) : List Char := xs.flatMap fun x => [',', ' '] ++ x.text

/-- A declaration of one or more variables. -/
def declaration (word : List Char) (x : Declarator) (xs : List Declarator) : List Char :=
  word ++ [' '] ++ x.text ++ further xs ++ [';']

theorem map_erased {xs : List Declarator} (h : ∀ x ∈ xs, x.type = none) : xs.map erased = xs := by
  refine (List.map_congr_left fun x hx => ?_).trans xs.map_id
  rw [erased, ← h x hx]
  rfl

end Declarator

open Form Grammar.Form in
/-- The code is rendered from an expression with a text: it has all but the blanks of it, without types
in heads of arrow functions. On one line it is the text itself. -/
structure Restates (text : List Char) (code : String) : Prop where
  shows : ∃ v : Tree, v.Of Form.bodies (capture "value" expression) ∧
    Text.nonBlank v.text = Text.nonBlank text ∧ Shows v (Text.nonBlank code.toList)
  copied : ¬ ['=', '>'] <:+: text → Text.nonBlank code.toList = Text.nonBlank text
  line : ¬ ['=', '>'] <:+: text → '\n' ∉ text → code = String.ofList (Text.trim text)

/-- The statement declares the variables with their values. -/
def Declares (word : List Char) (x : Declarator) (xs : List Declarator) (statement : String) : Prop :=
  ∃ init, statement = String.ofList word ++ " " ++ String.ofList x.name ++ init ++ ";" ∧
    match x.value with
    | none => init = "" ∧ xs = []
    | some value => ∃ code, init = " = " ++ code ∧ Restates (value ++ Declarator.further xs) code

namespace Form

open Grammar.Form

variable {t u : Tree} {outlines : Nat → Option Outline}

/-- The value of an expression restates its text. -/
theorem restates_of_expression {v : Tree} {gap text : List Char}
    (hv : v.Of bodies (capture "value" expression)) (hgap : ∀ c ∈ gap, Unicode.isSpace c = true)
    (htext : v.text ++ gap = text.dropWhile Unicode.isSpace) : Restates text v.value.flatten := by
  have hblank : Text.nonBlank v.text = Text.nonBlank text := by
    have hsame := congrArg Text.nonBlank htext
    rwa [Text.nonBlank_append, Text.nonBlank_eq_nil hgap, List.append_nil, ← Text.trimStart,
      Text.nonBlank_trimStart] at hsame
  have hinfix : v.text <:+: text := by
    refine List.IsInfix.trans ?_ (List.dropWhile_suffix Unicode.isSpace).isInfix
    rw [← htext]
    exact List.infix_append' [] v.text gap
  have hcopied (harrow : ¬ ['=', '>'] <:+: text) := copied_expression hv
    (noArrow_of_text hv fun h => harrow (h.trans hinfix))
  refine ⟨⟨v, hv, hblank, rendered_of_expression hv⟩, fun harrow => ?_, fun harrow hline => ?_⟩
  · exact (hcopied harrow).1.trans hblank
  · have hbreak : NoBreak v := fun n leaf hleaf _ hmem =>
      hline ((hleaf.text_infix.trans hinfix).subset hmem)
    have htrim : Text.trimEnd v.text = Text.trim text := by
      rw [Text.trim, Text.trimStart, ← htext, Text.trimEnd, Text.trimEnd, List.reverse_append,
        List.dropWhile_append_of_pos fun c hc => hgap c (List.mem_reverse.mp hc)]
    rw [(hcopied harrow).2 hbreak, htrim]
    rfl

theorem closes_semicolon : Closes 0 [';'] :=
  .of_mark rfl rfl rfl rfl (by simp) rfl (by decide) (by simp) (Nat.lt_succ_self 0)

/-- A declaration that is matched as one, and in which the first variable has a value or is the only
one, declares all variables. -/
theorem declares_of_reads {rules : Rules} {value : Outline} {word : List Char} {x : Declarator}
    {xs : List Declarator} (hd : Depicts slots (outlineOf rules) bodies)
    (houtline : binding.outline slots = bindingOutline value) (hword : word ∈ declarationWords)
    (hx : isIdentifier x.name = true) (htype : Annotates rules (outlineOf rules) x.type)
    (hvalue : x.value.isSome = true ∨ xs = [])
    (h : t.Reads bodies binding (Declarator.declaration word x xs) []) :
    Declares word x xs t.value.flatten := by
  rw [Declares]
  cases hfirst : x.value with
  | none =>
    obtain rfl : xs = [] := hvalue.resolve_left (by simp [hfirst])
    have hsource : Declarator.declaration word x [] =
        word ++ ' ' :: (x.name ++ (annotationText x.type ++ [';'])) := by
      simp [Declarator.declaration, Declarator.text, Declarator.further, hfirst, Declarator.valueText]
    rw [hsource] at h
    obtain ⟨i, s, mid, -, hi, -, hrendered⟩ :=
      exists_of_declaration hd houtline hword hx closes_semicolon (by decide) htype h
    exact ⟨"", by rw [hrendered, value_of_semicolon hd hi]; rfl, rfl, rfl⟩
  | some first =>
    have hsource : Declarator.declaration word x xs =
        word ++ ' ' :: (x.name ++ (annotationText x.type ++ ' ' :: '=' :: ' ' ::
          (first ++ Declarator.further xs ++ [';']))) := by
      simp [Declarator.declaration, Declarator.text, hfirst, Declarator.valueText]
    rw [hsource] at h
    obtain ⟨i, s, mid, -, hi, hs, hrendered⟩ :=
      exists_of_declaration hd houtline hword hx (closes_equals rfl) (by decide) htype h
    obtain ⟨v, gap, -, hv, hkept, hgap, htext⟩ := exists_of_valued hd hi hs
    refine ⟨" = " ++ v.value.flatten, ?_, v.value.flatten, rfl, restates_of_expression hv hgap htext⟩
    rw [hrendered, hkept]
    rfl

end Form

open Form Grammar.Form in
/-- A declaration of variables is emitted as one statement that declares all of them with their values,
if the first variable has a value or is the only one, only the first has a type, and the grammar
matches the whole as a declaration, unless rules nest too deeply. -/
theorem Transpiler.transform_declarators {settings : Settings} {t : Transpiler}
    (ht : Transpiler.ofSettings settings = .ok t) {word : List Char} (hword : word ∈ declarationWords)
    {x : Declarator} {xs : List Declarator} (hx : isIdentifier x.name = true)
    (htype : ∀ type ∈ x.type, t.parsers.Accepts (t.parsers.body? "type") type)
    (hvalue : x.value.isSome = true ∨ xs = []) (htypes : ∀ y ∈ xs, y.type = none)
    (haccepts : t.parsers.Accepts t.parsers.binding? (Declarator.declaration word x xs))
    (hdeep : ¬ (t.transform (Declarator.declaration word x xs)).TooDeep) :
    ∃ k tree statement, t.transform (Declarator.declaration word x xs) = .success (statement ++ "\n") ∧
      Grows Form.bodies k (Declarator.declaration word x xs) 0 program 0 tree ∧
      tree.value.flatten = statement ++ "\n" ∧ emitted tree = [statement] ∧
      Declares word x (xs.map Declarator.erased) statement ∧
      ∀ s ∈ emitted tree, s.toList.head? ≠ some ',' := by
  obtain ⟨parsers, hparsers, rfl⟩ := eq_of_ofSettings ht
  obtain ⟨member, F, hid, hroot, -⟩ := Parsers.exists_family hparsers
  obtain ⟨value, houtline, hdeclared⟩ := Parsers.declared_binding hparsers
  obtain ⟨d, cs, rfl, hletter, hspace⟩ := exists_of_declarationWords hword
  have hdepicts := Parsers.depicts hparsers
  have houtlined := Parsers.outlined hparsers
  have B := houtlined.types
  have hbinding := haccepts.leaves F hid fun hm =>
    ⟨Parsers.member_alternative F hm, Parsers.outline_alternative (hdeclared d hletter) hm⟩
  have htype : Annotates parsers.program.rules (outlineOf parsers.program.rules) x.type :=
    fun T hT => ⟨B, B, .rule B.type ((htype T hT).leaves F hid fun hm =>
      ⟨Parsers.member_body F hm, Parsers.outline_type B hm⟩)⟩
  -- the program leaves nothing, so that all of it is matched
  obtain ⟨code, hcode⟩ : ∃ code, Transpiler.transform ⟨parsers, optionsOf settings⟩
      (Declarator.declaration (d :: cs) x xs) = .success code := by
    have hprogram := (leaves_program (hdeclared d hletter) hspace houtlined.empty hbinding).1
    rw [← (Parsers.outline_root hparsers).1] at hprogram
    obtain ⟨code, hcode, -⟩ := exists_code hparsers
      ((Parser.parse_of_leaves F hid hroot hprogram).imp_right fun ⟨s, hs⟩ => ⟨s, s, hs, hs, rfl⟩) hdeep
    exact ⟨code, hcode⟩
  obtain ⟨k, tree, htree, htext, hflatten⟩ := Transpiler.exists_grows ht hcode
  have hreads : tree.Reads Form.bodies program (Declarator.declaration (d :: cs) x xs) [] :=
    htree.reads (Text.fromBoundary?_zero _) (by rw [htext, List.append_nil])
  rw [← houtline] at hbinding
  obtain ⟨u, hu, -, hemitted⟩ :=
    exists_binding_of_program hdepicts hletter hspace hbinding hreads
  have hdeclares := declares_of_reads hdepicts houtline hword hx htype hvalue hu
  have hlines : tree.value.flatten = u.value.flatten ++ "\n" := by
    rw [value_of_emitted htree.of, hemitted]
    rfl
  rw [← hflatten, hlines] at hcode
  refine ⟨k, tree, u.value.flatten, hcode, htree, hlines, hemitted, ?_, fun s hs => ?_⟩
  · rw [Declarator.map_erased htypes]
    exact hdeclares
  · rw [hemitted] at hs
    obtain rfl := List.mem_singleton.mp hs
    obtain ⟨init, hstatement, -⟩ := hdeclares
    have hhead : u.value.flatten.toList.head? = some d := by simp [hstatement]
    rw [hhead]
    rintro h
    obtain rfl := Option.some.inj h
    exact absurd hletter (by decide)

/-! ## A list that stays together, and one that falls apart -/

/-- A variable with a type and a value. -/
def typedOne : Declarator := { name := ['a'], type := some ['T'], value := some ['1'] }

/-- Two variables without types, the second with a value. -/
def untypedTwo : List Declarator := [{ name := ['b'] }, { name := ['c'], value := some ['2'] }]

/-- The declaration of two variables without values. -/
def valueless : List Char := Declarator.declaration ['l', 'e', 't'] { name := ['a'] } [{ name := ['b'] }]

theorem transform_declarators_compiled : Parsers.compiled.toOption.any (fun parsers =>
    parsers.accepts (parsers.body? "type") ['T'] &&
      parsers.accepts parsers.binding? (Declarator.declaration ['l', 'e', 't'] typedOne untypedTwo) &&
      (parsers.plain.transform
        (Declarator.declaration ['l', 'e', 't'] typedOne untypedTwo)).diagnostic.isNone &&
      parsers.plain.transform valueless = .success "let a;\n, b;\n") = true := by
  rw [Parsers.compiled_eq]
  decide +kernel

open Form Grammar.Form in
theorem Transpiler.transform_declarators_typed :
    ∃ t k tree statement, Transpiler.ofSettings {} = .ok t ∧
      t.transform (Declarator.declaration ['l', 'e', 't'] typedOne untypedTwo) =
        .success (statement ++ "\n") ∧
      Grows Form.bodies k (Declarator.declaration ['l', 'e', 't'] typedOne untypedTwo) 0 program 0 tree ∧
      tree.value.flatten = statement ++ "\n" ∧ emitted tree = [statement] ∧
      Declares ['l', 'e', 't'] typedOne (untypedTwo.map Declarator.erased) statement ∧
      ∀ s ∈ emitted tree, s.toList.head? ≠ some ',' := by
  obtain ⟨parsers, hparsers⟩ := Parsers.exists_compiled
  have hcheck := transform_declarators_compiled
  rw [hparsers] at hcheck
  simp only [Except.toOption, Option.any_some, Bool.and_eq_true] at hcheck
  obtain ⟨⟨⟨htype, hbinding⟩, hnone⟩, -⟩ := hcheck
  have hdeep := Parsers.not_tooDeep_of_plain hparsers hnone
  have ht := ofSettings_eq hparsers {}
  obtain ⟨k, tree, statement, h⟩ := Transpiler.transform_declarators ht (x := typedOne)
    (by decide) (by decide)
    (fun type h => by obtain rfl := Option.some.inj h; exact Parsers.accepts_of_check htype)
    (.inl rfl) (by decide) (Parsers.accepts_of_check hbinding) hdeep
  exact ⟨_, k, tree, statement, ht, h⟩

/-- A variable without a value ends the declaration, and the variables behind it are left to a statement
that begins with the comma. -/
theorem Transpiler.transform_split_declaration : ∃ t, Transpiler.ofSettings {} = .ok t ∧
    t.transform valueless = .success "let a;\n, b;\n" := by
  obtain ⟨parsers, hparsers⟩ := Parsers.exists_compiled
  have hcheck := transform_declarators_compiled
  rw [hparsers] at hcheck
  simp only [Except.toOption, Option.any_some, Bool.and_eq_true, decide_eq_true_eq] at hcheck
  exact ⟨_, ofSettings_eq hparsers {}, Parsers.transform_eq_of_plain hparsers hcheck.2⟩

end Typestrip.TypeScript
