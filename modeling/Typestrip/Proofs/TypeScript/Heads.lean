import Typestrip.Proofs.Grammar.Omissions
import Typestrip.Proofs.Regex.Locality
import Typestrip.Proofs.TypeScript.Expressions

/-!
# Heads of arrow functions

An expression is copied but for the heads of arrow functions in it: these are rendered again from their
parameters, without the types. All else is found in the value, up to blanks (`rendered_of_expression`),
and so something is lost exactly if types were read (`Transpiler.transform_heads`). What comes before
an arrow is read as a head wherever it can be: behind the condition of a conditional, a group and the
branch after it are read as parameters with a return type, which is lost
(`Transpiler.transform_branch_head`).
-/

namespace Typestrip.TypeScript

open Grammar Grammar.Tree

namespace Form

open Grammar.Form

variable {t u : Tree} {n : Node} {name : String} {cs : List Char} {ts : List Tree}

/-- What the head of an arrow function has besides its parameters and their defaults: a return type,
marks of optional parameters, annotations, and a comma behind the last parameter. -/
def headTypes : List Node :=
  [nullable (sequence [blanks, literal ":", blanks, reference "arrow_return_type"]),
    nullable (regex "\\s*\\?"), annotation, nullable (sequence [blanks, literal ","])]

/-- Up to blanks this is what the match is without the types in heads of arrow functions. -/
structure Shows (t : Tree) (cs : List Char) : Prop where
  remains : Text.nonBlank t.remains = cs
  omits : ∀ u, t.Omits u → u.node ∈ headTypes

/-- Up to blanks the value is what the match is without the types in heads of arrow functions. -/
def Rendered (t : Tree) : Prop := Shows t (Text.nonBlank t.value.flatten.toList)

/-! ## Parts -/

theorem isOmissible_capture (name : String) (n : Node) :
    (capture name n).isOmissible = false := by
  cases n <;> exact Bool.and_false _

theorem isOmissible_map (f : Value → Value) (n : Node) : (map f n).isOmissible = n.isOmissible := by
  cases n <;> rfl

theorem isVerbatim_derive (change : Attributes → Attributes) (n : Node) :
    (derive change n).isVerbatim = n.isVerbatim := by
  cases n <;> rfl

theorem Shows.of_cuts {pieces : List Cut} (h : t.cuts = pieces)
    (hpieces : ∀ u, .omission u ∈ pieces → u.node ∈ headTypes) :
    Shows t (Text.nonBlank (pieces.flatMap Cut.remains)) := by
  subst h
  exact ⟨rfl, hpieces⟩

theorem shows_of_text (h : t.cuts = [.rest cs]) : Shows t (Text.nonBlank cs) := by
  have hshows := Shows.of_cuts h (by simp)
  rwa [List.flatMap_singleton] at hshows

theorem shows_skipped (n : Node) : Shows (.skipped n) [] := by
  have hcuts : (Tree.skipped n).cuts = [] := by rw [cuts]
  exact .of_cuts hcuts (by simp)

/-- A match that is made of its parts shows what they do. -/
theorem Shows.branch {css : List (List Char)} (hn : n.isOmissible = false)
    (hn' : n.isVerbatim = false) (h : List.Forall₂ Shows ts css) (hcs : css.flatten = cs) :
    Shows (.branch n ts) cs := by
  have hcuts : (Tree.branch n ts).cuts = ts.flatMap cuts := cuts_branch hn hn'
  subst hcs
  constructor
  · rw [Tree.remains, hcuts, List.flatMap_assoc]
    clear hcuts
    induction h with
    | nil => rfl
    | cons ht _ ih =>
      rw [List.flatMap_cons, Text.nonBlank_append, ih, List.flatten_cons, ← ht.remains]
      rfl
  · intro u hu
    rw [Omits, hcuts] at hu
    obtain ⟨t, ht, hu⟩ := List.mem_flatMap.mp hu
    obtain ⟨i, hi, rfl⟩ := List.getElem_of_mem ht
    exact (h.get hi (h.length_eq ▸ hi)).omits u hu

theorem Shows.only (hn : n.isOmissible = false) (hn' : n.isVerbatim = false) (h : Shows u cs) :
    Shows (.branch n [u]) cs :=
  .branch hn hn' (.cons h .nil) List.flatten_singleton

theorem Shows.recast {m : Node} (h : Shows t cs) (hn : t.node.isOmissible = false)
    (hm : m.isOmissible = false) (hm' : m.isVerbatim = t.node.isVerbatim) : Shows (t.recast m) cs := by
  have hcuts := cuts_recast hn hm hm'
  constructor
  · rw [Tree.remains, hcuts]
    exact h.remains
  · intro u hu
    rw [Omits, hcuts] at hu
    exact h.omits u hu

/-- Keeping the value of a match under a name leaves the match as it is. -/
theorem Rendered.of_capture (h : t.Of bodies (capture name n)) (hn : n.isOmissible = false)
    (hrendered : ∀ u : Tree, u.Of bodies n → Rendered u) : Rendered t := by
  obtain ⟨u, hu, rfl, hvalue⟩ := h.exists_of_capture
  obtain rfl := hu.node_eq
  rw [Rendered, hvalue]
  exact (hrendered u hu).recast hn (isOmissible_capture name u.node) (isVerbatim_derive _ u.node)

theorem shows_of_regex {source : String} (h : t.Of bodies (regex source)) :
    Shows t (Text.nonBlank t.text) := by
  obtain ⟨text, rfl, -⟩ := value_of_regex h
  exact shows_of_text rfl

theorem shows_of_literal {text : String} (h : t.Of bodies (literal text)) :
    Shows t (Text.nonBlank text.toList) := by
  cases h with
  | literal => exact shows_of_text rfl
  | skipped hnull => cases hnull

theorem ofSource?_blanks : Regex.Expr.ofSource? (anchoredSource "\\s*") =
    some (.anchored (.star true (.chars .space))) := by
  decide +kernel

theorem nonBlank_of_blanks (h : t.Of bodies blanks) : Text.nonBlank t.text = [] := by
  cases h with
  | skipped => rfl
  | regex hregex hk =>
    obtain rfl := Option.some.inj (ofSource?_blanks.symm.trans hregex)
    obtain ⟨y, hy, hleads⟩ := Regex.Expr.exists_leads_of_search? hk
    exact Text.nonBlank_eq_nil (Regex.Expr.mayTake_of_mem_ends hy hleads)

theorem shows_of_blanks (h : t.Of bodies blanks) : Shows t [] := by
  rw [← nonBlank_of_blanks h]
  exact shows_of_regex h

/-- Types show nothing. -/
theorem shows_of_headTypes (h : t.Of bodies n) (hn : n ∈ headTypes) : Shows t [] := by
  have homissible : n.isOmissible = true := by
    simp only [headTypes, List.mem_cons, List.not_mem_nil, or_false] at hn
    rcases hn with rfl | rfl | rfl | rfl <;> rfl
  obtain rfl := h.node_eq
  rcases cuts_of_isOmissible homissible with hcuts | hcuts
  · exact .of_cuts hcuts (by simp)
  · exact .of_cuts hcuts (by simpa using hn)

/-! ## Groups and runs -/

theorem rendered_of_regex {source : String} (h : t.Of bodies (regex source)) : Rendered t := by
  obtain ⟨text, rfl, hvalue⟩ := value_of_regex h
  rw [Rendered, hvalue, Value.flatten, String.toList_ofList]
  exact shows_of_text rfl

theorem rendered_of_group (h : t.Of bodies (reference "group")) : Rendered t := by
  obtain ⟨rule, hrule, u, rfl, hu, hvalue⟩ := exists_of_group h
  obtain ⟨opening, closing, items, rfl, -, -, hvalue'⟩ := exists_of_enclosed hrule hu
  rw [Rendered, hvalue, hvalue', Value.flatten, String.toList_ofList, text_branch_singleton]
  -- between the marks nothing is kept by name
  exact .only rfl rfl (.only rfl rfl (.only rfl rfl (shows_of_text (cuts_branch_verbatim rfl rfl))))

theorem rendered_of_run {pieces : List Node} (h : t.Of bodies (run pieces))
    (hpieces : ∀ n ∈ pieces, ∀ u : Tree, u.Of bodies n → Rendered u) : Rendered t := by
  obtain ⟨head, tail, rfl, hall, hvalue⟩ := exists_of_run h
  have hrendered : ∀ u ∈ head :: tail, Rendered u := fun u hu => by
    obtain ⟨n, hn, hu⟩ := hall u hu
    exact hpieces n hn u hu
  obtain ⟨hhead, htail⟩ := List.forall_mem_cons.mp hrendered
  have hrounds : List.Forall₂ Shows (tail.map fun u => .branch (choice pieces) [u])
      (tail.map fun u => Text.nonBlank u.value.flatten.toList) :=
    List.forall₂_map_left_iff.mpr (List.forall₂_map_right_iff.mpr
      (List.forall₂_same.mpr fun u hu => .only rfl rfl (htail u hu)))
  rw [Rendered, hvalue]
  refine .branch rfl rfl (.cons (.only rfl rfl hhead) (.cons (.branch rfl rfl hrounds rfl) .nil)) ?_
  rw [Text.nonBlank_flatMap, List.flatMap_def]
  simp

/-! ## Parameters -/

/-- The default of a parameter is shown behind an equals sign. -/
theorem shows_of_default (h : t.Of bodies
    (capture "default" (nullable (sequence [blanks, literal "=", blanks, capture "value" default])))) :
    Shows t (match t.value.field? "value" with
      | some v => '=' :: Text.nonBlank v.flatten.toList
      | none => []) := by
  obtain ⟨b, e, b', v, rfl, hv, hfield⟩ | rfl := exists_of_default h
  · obtain _ | ⟨hb, _ | ⟨he, _ | ⟨hb', -⟩⟩⟩ := h.parts
    have hvalue : Rendered v := .of_capture hv rfl fun u hu =>
      rendered_of_run hu fun n hn w hw => by
        simp only [List.mem_cons, List.not_mem_nil, or_false] at hn
        rcases hn with rfl | rfl | rfl
        · exact rendered_of_regex hw
        · exact rendered_of_group hw
        · exact rendered_of_regex hw
    rw [hfield]
    refine .branch rfl rfl (.cons (shows_of_blanks hb) (.cons (shows_of_literal he)
      (.cons (shows_of_blanks hb') (.cons hvalue .nil)))) ?_
    simp only [List.flatten_cons, List.flatten_nil, List.nil_append, List.append_nil]
    rfl
  · exact shows_skipped _

theorem rendered_of_param (h : t.Of bodies param) : Rendered t := by
  obtain ⟨n, m, a, d, rfl, hn, hd, hvalue⟩ := exists_of_param h
  obtain _ | ⟨-, _ | ⟨hm, _ | ⟨ha, -⟩⟩⟩ := h.parts
  have hname : Rendered n := .of_capture hn rfl fun u hu => by
    obtain ⟨n, hn, v, rfl, hv⟩ := hu.exists_alternative rfl
    simp only [List.mem_cons, List.not_mem_nil, or_false] at hn
    rcases hn with rfl | rfl
    · exact .only rfl rfl (rendered_of_regex hv)
    · exact .only rfl rfl (rendered_of_group hv)
  rw [Rendered, hvalue]
  refine .branch rfl rfl (.cons hname (.cons (shows_of_headTypes hm (by simp [headTypes]))
    (.cons (shows_of_headTypes ha (by simp [headTypes])) (.cons (shows_of_default hd) .nil)))) ?_
  simp only [List.flatten_cons, List.flatten_nil, List.nil_append, List.append_nil, Value.flatten]
  cases d.value.field? "value" with
  | none => exact List.append_nil _
  | some v =>
    simp only [String.toList_append, Text.nonBlank_append, String.toList_ofList,
      Text.nonBlank_trimEnd, List.append_assoc]
    rfl

/-- Between parameters stand commas. -/
theorem shows_of_furtherParam (h : t.Of bodies furtherParam) :
    Shows t (',' :: Text.nonBlank t.value.flatten.toList) := by
  obtain ⟨b, c, b', p, rfl, hp, hvalue⟩ := exists_of_furtherParam h
  obtain _ | ⟨hb, _ | ⟨hc, _ | ⟨hb', -⟩⟩⟩ := h.parts
  rw [hvalue]
  exact .branch rfl rfl (.cons (shows_of_blanks hb) (.cons (shows_of_literal hc)
    (.cons (shows_of_blanks hb') (.cons (Rendered.of_capture hp rfl fun u => rendered_of_param)
      .nil)))) (by simp only [List.flatten_cons, List.flatten_nil, List.nil_append, List.append_nil]; rfl)

theorem nonBlank_intercalate (first : String) (rest : List String) :
    Text.nonBlank (", ".intercalate (first :: rest)).toList =
      Text.nonBlank first.toList ++ rest.flatMap fun s => ',' :: Text.nonBlank s.toList := by
  have hcomma : Text.nonBlank ", ".toList = [','] := by decide
  induction rest generalizing first with
  | nil => simp
  | cons second rest ih =>
    rw [String.intercalate_cons_of_ne_nil (List.cons_ne_nil second rest), String.toList_append,
      String.toList_append, Text.nonBlank_append, Text.nonBlank_append, hcomma, ih]
    simp

theorem rendered_of_params (h : t.Of bodies (capture "params" params)) : Rendered t := by
  obtain ⟨u, hu, rfl, hvalue⟩ := h.exists_of_capture
  rw [Rendered, hvalue]
  obtain rfl | ⟨first, rest, trailing, rfl, hfirst, hrest, hvalue'⟩ := exists_of_params hu
  · exact shows_skipped _
  · obtain _ | ⟨-, _ | ⟨-, _ | ⟨htrailing, -⟩⟩⟩ := hu.parts
    have hfirst : Rendered first := .of_capture hfirst rfl fun u => rendered_of_param
    have hrest : List.Forall₂ Shows rest
        (rest.map fun u => ',' :: Text.nonBlank u.value.flatten.toList) :=
      List.forall₂_map_right_iff.mpr (List.forall₂_same.mpr fun u hu =>
        shows_of_furtherParam (hrest u hu))
    rw [hvalue']
    refine .branch rfl rfl (.cons hfirst (.cons (.branch rfl rfl hrest rfl)
      (.cons (shows_of_headTypes htrailing (by simp [headTypes])) .nil))) ?_
    rw [Value.flatten, nonBlank_intercalate, List.flatMap_map, List.flatMap_def]
    simp

theorem rendered_of_arrowHead (h : t.Of bodies arrowHead) : Rendered t := by
  obtain ⟨o, b, p, b', c, r, b'', a, rfl, hp, hvalue⟩ := exists_of_arrowHead h
  obtain _ | ⟨ho, _ | ⟨hb, _ | ⟨-, _ | ⟨hb', _ | ⟨hc, _ | ⟨hr, _ | ⟨hb'', _ | ⟨ha, -⟩⟩⟩⟩⟩⟩⟩⟩ := h.parts
  rw [Rendered, hvalue]
  refine .branch rfl rfl (.cons (shows_of_literal ho) (.cons (shows_of_blanks hb)
    (.cons (rendered_of_params hp) (.cons (shows_of_blanks hb') (.cons (shows_of_literal hc)
      (.cons (shows_of_headTypes hr (by simp [headTypes])) (.cons (shows_of_blanks hb'')
        (.cons (shows_of_literal ha) .nil)))))))) ?_
  simp only [List.flatten_cons, List.flatten_nil, List.nil_append, List.append_nil, Value.flatten,
    String.toList_append, Text.nonBlank_append, List.append_assoc]
  rfl

/-! ## Expressions -/

theorem rendered_of_operand (hn : n ∈ operands) (h : t.Of bodies n) : Rendered t := by
  simp only [operands, List.mem_cons, List.not_mem_nil, or_false] at hn
  rcases hn with rfl | rfl | rfl | rfl | rfl | rfl
  · exact rendered_of_regex h
  · exact rendered_of_regex h
  · exact rendered_of_arrowHead h
  · exact rendered_of_group h
  · exact rendered_of_regex h
  · exact rendered_of_regex h

theorem rendered_of_joined {source : String} {rest : Node}
    (h : t.Of bodies (joined (regex source) rest)) (hn : rest.isOmissible = false)
    (hrest : ∀ u : Tree, u.Of bodies rest → Rendered u) : Rendered t := by
  obtain ⟨l, r, rfl, hl, hr, hvalue⟩ := exists_of_joined h
  obtain ⟨text, rfl⟩ | ⟨hnull, -⟩ := hl.exists_text
  · have hlead : Rendered (.leaf (capture "lead" (map reindent (regex source))) text) := by
      have hshows : Shows (.leaf (capture "lead" (map reindent (regex source))) text)
        (Text.nonBlank text) := shows_of_text rfl
      have hreindent := nonBlank_reindent (.text (String.ofList text))
      rw [Value.flatten, String.toList_ofList] at hreindent
      rw [← hreindent] at hshows
      exact hshows
    rw [Rendered, hvalue]
    refine .branch (by rw [joined, isOmissible_map]; rfl) ?_
      (.cons hlead (.cons (Rendered.of_capture hr hn hrest) .nil)) ?_
    · rw [joined, map, isVerbatim_derive]
      rfl
    · simp only [List.flatten_cons, List.flatten_nil, List.append_nil, Value.flatten,
        String.toList_append, Text.nonBlank_append]
      rfl
  · cases hnull

theorem rendered_of_piece (hn : n ∈ pieces) (h : t.Of bodies n) : Rendered t := by
  have hoperand (u : Tree) (hu : u.Of bodies (choice operands)) : Rendered u := by
    obtain ⟨n, hn, v, rfl, hv⟩ := hu.exists_alternative rfl
    exact .only rfl rfl (rendered_of_operand hn hv)
  simp only [pieces, List.mem_append, List.mem_cons, List.not_mem_nil, or_false] at hn
  rcases hn with hn | rfl | rfl | rfl
  · exact rendered_of_operand hn h
  · exact rendered_of_joined h rfl hoperand
  · exact rendered_of_joined h rfl hoperand
  · exact rendered_of_joined h rfl fun u hu => rendered_of_joined hu rfl hoperand

/-- Expressions are rendered without the types in heads of arrow functions. -/
theorem rendered_of_expression (h : t.Of bodies (capture name expression)) : Rendered t := by
  refine .of_capture h rfl fun u hu => ?_
  obtain ⟨v, hv, rfl, hvalue⟩ := hu.exists_of_map rfl
  have hshows : Rendered v := rendered_of_run hv fun n hn w hw => rendered_of_piece hn hw
  have hnode := hv.node_eq
  rw [Rendered, hvalue, trimmed, Value.flatten, String.toList_ofList, Text.nonBlank_trimEnd]
  exact hshows.recast (by rw [hnode]; rfl) rfl (by rw [hnode]; exact isVerbatim_derive _ _)

/-! ## What is lost -/

/-- A mark behind blanks comes first. -/
theorem nonBlank_of_marked {s : String} {mark : Char} {ns : List Node}
    (h : t.Of bodies (nullable (sequence (blanks :: literal s :: ns))))
    (hs : Text.nonBlank s.toList = [mark]) :
    Text.nonBlank t.text = [] ∨ ∃ rest, Text.nonBlank t.text = mark :: rest := by
  obtain ⟨ts, rfl, hts⟩ | ⟨-, rfl⟩ := h.exists_parts
  · obtain _ | ⟨hb, _ | @⟨_, _, _, ts, hm, -⟩⟩ := hts
    cases hm with
    | skipped hnull => cases hnull
    | literal =>
      refine .inr ⟨Text.nonBlank (textAll ts), ?_⟩
      rw [Tree.text, textAll_cons, textAll_cons, Text.nonBlank_append, Text.nonBlank_append,
        nonBlank_of_blanks hb, Tree.text, hs]
      rfl
  · exact .inl rfl

theorem ofSource?_optional : Regex.Expr.ofSource? (anchoredSource "\\s*\\?") =
    some (.anchored (.seq (.star true (.chars .space)) (.chars (.single '?')))) := by
  decide +kernel

theorem nonBlank_of_optional (h : t.Of bodies (nullable (regex "\\s*\\?"))) :
    Text.nonBlank t.text = [] ∨ ∃ rest, Text.nonBlank t.text = '?' :: rest := by
  cases h with
  | skipped => exact .inl rfl
  | regex hregex hk =>
    obtain rfl := Option.some.inj (ofSource?_optional.symm.trans hregex)
    obtain ⟨y, hy, hleads⟩ := Regex.Expr.exists_leads_of_search? hk
    obtain ⟨front, z, back, htext, hz, hfront, hy', hback⟩ :=
      Regex.Expr.exists_of_seq_leads hy hleads
    obtain ⟨c, rfl, hc⟩ := Regex.Expr.exists_of_chars_leads hy' hback
    obtain rfl : c = '?' := by simpa [Regex.CharSet.holds_single] using hc
    have hblank : Text.nonBlank front = [] :=
      Text.nonBlank_eq_nil (Regex.Expr.mayTake_of_mem_ends hz hfront)
    refine .inr ⟨[], ?_⟩
    rw [Tree.text, htext, Text.nonBlank_append, hblank]
    rfl

/-- Types begin with a colon, a question mark or a comma. -/
theorem nonBlank_of_headTypes (h : t.Of bodies n) (hn : n ∈ headTypes) :
    Text.nonBlank t.text = [] ∨
      ∃ mark ∈ [':', '?', ','], ∃ rest, Text.nonBlank t.text = mark :: rest := by
  have hmark (mark : Char) (hmark : mark ∈ [':', '?', ','])
      (h : Text.nonBlank t.text = [] ∨ ∃ rest, Text.nonBlank t.text = mark :: rest) :
      Text.nonBlank t.text = [] ∨
        ∃ mark ∈ [':', '?', ','], ∃ rest, Text.nonBlank t.text = mark :: rest :=
    h.imp_right fun hrest => ⟨mark, hmark, hrest⟩
  simp only [headTypes, List.mem_cons, List.not_mem_nil, or_false] at hn
  rcases hn with rfl | rfl | rfl | rfl
  · exact hmark ':' (by decide) (nonBlank_of_marked h (by decide))
  · exact hmark '?' (by decide) (nonBlank_of_optional h)
  · exact hmark ':' (by decide) (nonBlank_of_marked h (by decide))
  · exact hmark ',' (by decide) (nonBlank_of_marked h (by decide))

/-- Where no arrow stands there is no head of an arrow function. -/
theorem noArrow_of_text (h : t.Of bodies n) (ht : ¬ ['=', '>'] <:+: t.text) : NoArrow t := by
  intro u hu hnode
  refine ht (List.IsInfix.trans ?_ hu.text_infix)
  have hof := h.of_within hu
  rw [hnode] at hof
  obtain ⟨o, b, p, b', c, r, b'', a, rfl, -⟩ := exists_of_arrowHead hof
  obtain _ | ⟨-, _ | ⟨-, _ | ⟨-, _ | ⟨-, _ | ⟨-, _ | ⟨-, _ | ⟨-, _ | ⟨ha, -⟩⟩⟩⟩⟩⟩⟩⟩ := hof.parts
  have harrow : a.text = ['=', '>'] := by
    cases ha with
    | literal => rfl
    | skipped hnull => cases hnull
  have hlast : a.Within (.branch arrowHead [o, b, p, b', c, r, b'', a]) :=
    .of_part (List.mem_of_mem_getLast? rfl)
  rw [← harrow]
  exact hlast.text_infix

end Form

open Form Grammar.Form in
/-- In every source that is accepted, expressions are kept up to blanks but for the types in the heads
of arrow functions: return types, annotations and question marks of parameters, and commas behind the
last one. So nothing of an expression is lost exactly if these match nothing but blanks in it, and in
particular if no arrow stands in it. -/
theorem Transpiler.transform_heads {settings : Settings} {t : Transpiler}
    (ht : Transpiler.ofSettings settings = .ok t) {source : List Char} {code : String}
    (h : t.transform source = .success code) :
    ∃ k tree, Grows Form.bodies k source 0 program 0 tree ∧ tree.text = source ∧
      tree.value.flatten = code ∧
      ∀ (u : Tree) (name : String), u.Within tree → u.node = capture name expression →
        Text.nonBlank u.value.flatten.toList = Text.nonBlank u.remains ∧
        (∀ v, u.Omits v → v.node ∈ headTypes ∧ (Text.nonBlank v.text = [] ∨
          ∃ mark ∈ [':', '?', ','], ∃ rest, Text.nonBlank v.text = mark :: rest)) ∧
        (Text.nonBlank u.value.flatten.toList = Text.nonBlank u.text ↔
          ∀ v, u.Omits v → Text.nonBlank v.text = []) ∧
        (¬ ['=', '>'] <:+: u.text →
          Text.nonBlank u.value.flatten.toList = Text.nonBlank u.text) := by
  obtain ⟨k, tree, htree, htext, hcode⟩ := Transpiler.exists_grows ht h
  refine ⟨k, tree, htree, htext, hcode, fun u name hu hnode => ?_⟩
  have hof := htree.of.of_within hu
  rw [hnode] at hof
  obtain ⟨hremains, homits⟩ := rendered_of_expression hof
  refine ⟨hremains.symm, fun v hv => ⟨homits v hv, ?_⟩, ?_, fun harrow => ?_⟩
  · exact nonBlank_of_headTypes (hof.of_within hv.within) (homits v hv)
  · rw [← hremains, nonBlank_remains_iff]
  · exact (copied_expression hof (noArrow_of_text hof harrow)).1

/-! ## A typed head, and a branch that is taken for one -/

/-- An arrow function with types in its head. -/
def typedHead : List Char := "f=(a:T,b?)=>a;".toList

/-- A conditional with a group in its second branch and an arrow function in its third. -/
def headInBranch : List Char := "r = c ? (a) : b => e;".toList

theorem transform_heads_compiled : Parsers.compiled.toOption.any (fun parsers =>
    parsers.plain.transform typedHead = .success "f=(a, b) =>a;\n" &&
      parsers.plain.transform headInBranch = .success "r = c ? (a) => e;\n") = true := by
  rw [Parsers.compiled_eq]
  decide +kernel

theorem exists_transform_heads : ∃ t, Transpiler.ofSettings {} = .ok t ∧
    t.transform typedHead = .success "f=(a, b) =>a;\n" ∧
    t.transform headInBranch = .success "r = c ? (a) => e;\n" := by
  obtain ⟨parsers, hparsers⟩ := Parsers.exists_compiled
  have hcheck := transform_heads_compiled
  rw [hparsers] at hcheck
  simp only [Except.toOption, Option.any_some, Bool.and_eq_true, decide_eq_true_eq] at hcheck
  exact ⟨_, Transpiler.ofSettings_eq hparsers {}, Parsers.transform_eq_of_plain hparsers hcheck.1,
    Parsers.transform_eq_of_plain hparsers hcheck.2⟩

open Form Grammar.Form in
theorem Transpiler.transform_heads_typed : ∃ t k tree, Transpiler.ofSettings {} = .ok t ∧
    t.transform typedHead = .success "f=(a, b) =>a;\n" ∧
    Grows Form.bodies k typedHead 0 program 0 tree ∧ tree.text = typedHead ∧
    tree.value.flatten = "f=(a, b) =>a;\n" ∧
    ∀ (u : Tree) (name : String), u.Within tree → u.node = capture name expression →
      Text.nonBlank u.value.flatten.toList = Text.nonBlank u.remains ∧
      (∀ v, u.Omits v → v.node ∈ headTypes ∧ (Text.nonBlank v.text = [] ∨
        ∃ mark ∈ [':', '?', ','], ∃ rest, Text.nonBlank v.text = mark :: rest)) ∧
      (Text.nonBlank u.value.flatten.toList = Text.nonBlank u.text ↔
        ∀ v, u.Omits v → Text.nonBlank v.text = []) ∧
      (¬ ['=', '>'] <:+: u.text →
        Text.nonBlank u.value.flatten.toList = Text.nonBlank u.text) := by
  obtain ⟨t, ht, hcode, -⟩ := exists_transform_heads
  obtain ⟨k, tree, htree⟩ := Transpiler.transform_heads ht hcode
  exact ⟨t, k, tree, ht, hcode, htree⟩

/-- A group in a branch of a conditional is taken for the parameters of an arrow function, and the next
branch for its return type. -/
theorem Transpiler.transform_branch_head : ∃ t, Transpiler.ofSettings {} = .ok t ∧
    t.transform headInBranch = .success "r = c ? (a) => e;\n" := by
  obtain ⟨t, ht, -, hcode⟩ := exists_transform_heads
  exact ⟨t, ht, hcode⟩

end Typestrip.TypeScript
