import Typestrip.Proofs.TypeScript.Forms
import Typestrip.Proofs.TypeScript.Memoization

/-!
# Trees of the grammar

What the trees of the constructs of the grammar look like and how their values are rendered: one lemma
for each construct, which gives the parts of its trees and its value in terms of the values of the
parts.
-/

namespace Typestrip.TypeScript

open Grammar Grammar.Tree

/-! ## Fields -/

/-- The fields of a sequence: the values of the parts that are kept. -/
def fields (ns : List Node) (ts : List Tree) : Value :=
  assemble (textAll ts) (valueAll ts) (.sequence { id := 0 } ns)

section

variable {ns : List Node} (hcapture : ns.any (·.attributes.capture.isSome) = true) (ts : List Tree)
  (name : String)

include hcapture

theorem field?_fields : (fields ns ts).field? name = (captured name ns ts).map value :=
  field?_assemble hcapture _ ts name

theorem fieldText_fields : fieldText name (fields ns ts) =
    match captured name ns ts with
    | some t => t.value.flatten
    | none => "" := by
  rw [fieldText, field?_fields hcapture]
  cases captured name ns ts <;> rfl

theorem inner?_fields (outer : String) :
    inner? outer name (fields ns ts) = (captured outer ns ts).bind (·.value.field? name) := by
  rw [inner?, field?_fields hcapture, Option.bind_map]
  rfl

end

/-- The fields of a sequence without a reshaping function are those of its value. -/
theorem field?_branch {a : Attributes} {ns : List Node} (ha : a.reshape = none)
    (hcapture : ns.any (·.attributes.capture.isSome) = true) (ts : List Tree) (name : String) :
    (value (.branch (.sequence a ns) ts)).field? name = (captured name ns ts).map value := by
  rw [value, Node.attributes, Attributes.reshaped, ha, field?_assemble hcapture]

/-- A construct is rendered by its fields. -/
theorem value_rendered (f : Value → Value) (ns : List Node) (ts : List Tree) :
    value (.branch (Grammar.Form.map f (Grammar.Form.sequence ns)) ts) = f (fields ns ts) :=
  rfl

namespace Form

open Grammar.Form

variable {t : Tree} {name : String}

theorem flattenItems_eq (vs : List Value) :
    (Value.flattenItems vs).toList = vs.flatMap (·.flatten.toList) := by
  induction vs with
  | nil => rfl
  | cons v vs ih => rw [Value.flattenItems, String.toList_append, ih, List.flatMap_cons]

/-- What a terminal matched is its value. -/
theorem value_of_regex {source : String} (h : t.Of bodies (regex source)) :
    ∃ text, t = .leaf (regex source) text ∧ t.value = .text (String.ofList text) := by
  obtain ⟨text, rfl⟩ | ⟨hnull, -⟩ := h.exists_text
  · exact ⟨text, rfl, rfl⟩
  · cases hnull

/-! ## Groups -/

/-- The rules for groups. -/
def groupNames : List String := ["parens", "brackets", "braces"]

/-- A group between two marks is kept as it is. -/
theorem exists_of_enclosed {rule : String} (hrule : rule ∈ groupNames)
    (h : t.Of bodies (reference rule)) :
    ∃ opening closing items, t = .branch (reference rule)
        [.branch (enclosed opening closing)
          [.leaf (literal opening) opening.toList,
            .branch (repetition (choice [string, reference "group", chunk])) items,
            .leaf (literal closing) closing.toList]] ∧
      (opening, closing) ∈ [("(", ")"), ("[", "]"), ("\x7b", "\x7d")] ∧
      (∀ u ∈ items, u.Of bodies (choice [string, reference "group", chunk])) ∧
      t.value = .text (String.ofList t.text) := by
  obtain ⟨opening, closing, hmarks, hbody⟩ : ∃ opening closing,
      (opening, closing) ∈ [("(", ")"), ("[", "]"), ("\x7b", "\x7d")] ∧
        bodies rule = some (enclosed opening closing) := by
    simp only [groupNames, List.mem_cons, List.not_mem_nil, or_false] at hrule
    rcases hrule with rfl | rfl | rfl
    · exact ⟨_, _, List.mem_cons_self, rfl⟩
    · exact ⟨_, _, List.mem_cons_of_mem _ List.mem_cons_self, rfl⟩
    · exact ⟨_, _, List.mem_cons_of_mem _ (List.mem_cons_of_mem _ List.mem_cons_self), rfl⟩
  obtain ⟨u, rfl, hu⟩ := h.exists_body rfl hbody
  obtain ⟨ts, rfl, hts⟩ | ⟨hnull, -⟩ := hu.exists_parts
  · obtain _ | ⟨hopening, _ | ⟨hitems, _ | ⟨hclosing, _ | _⟩⟩⟩ := hts
    obtain ⟨items, rfl, hall⟩ := hitems.exists_rounds rfl
    cases hopening with
    | skipped hnull => cases hnull
    | literal =>
      cases hclosing with
      | skipped hnull => cases hnull
      | literal =>
        refine ⟨opening, closing, items, rfl, hmarks, hall, ?_⟩
        rw [text_branch_singleton]
        rfl
  · cases hnull

theorem exists_of_group (h : t.Of bodies (reference "group")) :
    ∃ rule ∈ groupNames, ∃ u : Tree, t = .branch (reference "group") [.branch group [u]] ∧
      u.Of bodies (reference rule) ∧ t.value = u.value := by
  obtain ⟨v, rfl, hv⟩ := h.exists_body rfl rfl
  obtain ⟨n, hn, u, rfl, hu⟩ := hv.exists_alternative rfl
  simp only [List.mem_cons, List.not_mem_nil, or_false] at hn
  rcases hn with rfl | rfl | rfl
  · exact ⟨"parens", by decide, u, rfl, hu, rfl⟩
  · exact ⟨"brackets", by decide, u, rfl, hu, rfl⟩
  · exact ⟨"braces", by decide, u, rfl, hu, rfl⟩

/-! ## Runs, parameters and expressions -/

theorem exists_of_choices {pieces : List Node} {ts : List Tree}
    (h : ∀ t ∈ ts, t.Of bodies (choice pieces)) :
    ∃ us : List Tree, ts = us.map (fun u => .branch (choice pieces) [u]) ∧
      ∀ u ∈ us, ∃ n ∈ pieces, u.Of bodies n := by
  induction ts with
  | nil => exact ⟨[], rfl, by simp⟩
  | cons t ts ih =>
    obtain ⟨us, rfl, hus⟩ := ih fun u hu => h u (List.mem_cons_of_mem _ hu)
    obtain ⟨n, hn, u, rfl, hu⟩ := (h t List.mem_cons_self).exists_alternative rfl
    exact ⟨u :: us, rfl, List.forall_mem_cons.mpr ⟨⟨n, hn, hu⟩, hus⟩⟩

/-- The tree of a run of pieces. -/
def runTree (pieces : List Node) (head : Tree) (tail : List Tree) : Tree :=
  .branch (run pieces) [.branch (capture "head" (choice pieces)) [head],
    .branch (capture "tail" (repetition (choice pieces)))
      (tail.map fun u => .branch (choice pieces) [u])]

theorem text_runTree (pieces : List Node) (head : Tree) (tail : List Tree) :
    (runTree pieces head tail).text = head.text ++ tail.flatMap text := by
  have htail : textAll (tail.map fun u => .branch (choice pieces) [u]) = tail.flatMap text := by
    rw [textAll_eq_flatMap, List.flatMap_map]
    exact List.flatMap_congr fun u _ => text_branch_singleton _ u
  rw [runTree, Tree.text, textAll_cons, textAll_cons, textAll_nil, List.append_nil,
    text_branch_singleton, Tree.text, htail]

theorem within_runTree {pieces : List Node} {head u : Tree} {tail : List Tree}
    (hu : u ∈ head :: tail) : u.Within (runTree pieces head tail) := by
  rcases List.mem_cons.mp hu with rfl | hu
  · exact .inside List.mem_cons_self (.of_part (List.mem_singleton_self _))
  · exact .inside (List.mem_cons_of_mem _ List.mem_cons_self)
      (.inside (List.mem_map_of_mem hu) (.of_part (List.mem_singleton_self _)))

theorem exists_of_run {pieces : List Node} (h : t.Of bodies (run pieces)) :
    ∃ head tail, t = runTree pieces head tail ∧
      (∀ u ∈ head :: tail, ∃ n ∈ pieces, u.Of bodies n) ∧
      t.value.flatten.toList = (head :: tail).flatMap (·.value.flatten.toList) := by
  obtain ⟨ts, rfl, hts⟩ | ⟨hnull, -⟩ := h.exists_parts
  · obtain _ | ⟨hhead, _ | ⟨htail, _ | _⟩⟩ := hts
    obtain ⟨n, hn, head, rfl, hn'⟩ := hhead.exists_alternative rfl
    obtain ⟨rounds, rfl, hrounds⟩ := htail.exists_rounds rfl
    obtain ⟨tail, rfl, htail'⟩ := exists_of_choices hrounds
    refine ⟨head, tail, rfl, List.forall_mem_cons.mpr ⟨⟨n, hn, hn'⟩, htail'⟩, ?_⟩
    have hvalue : valueAll (tail.map fun u => .branch (choice pieces) [u]) = tail.map value := by
      rw [valueAll_eq_map, List.map_map]
      rfl
    have hrender : value (runTree pieces head tail) =
        .text (head.value.flatten ++ Value.flattenItems (tail.map value)) := by
      refine (value_rendered renderRun _ _).trans ?_
      rw [renderRun, fieldText_fields rfl, fieldText_fields rfl, ← hvalue]
      rfl
    calc (value (runTree pieces head tail)).flatten.toList
        = head.value.flatten.toList ++ (Value.flattenItems (tail.map value)).toList := by
          rw [hrender, Value.flatten, String.toList_append]
      _ = (head :: tail).flatMap (·.value.flatten.toList) := by
          rw [flattenItems_eq, List.flatMap_map, List.flatMap_cons]
  · cases hnull

theorem exists_of_joined {lead rest : Node} (h : t.Of bodies (joined lead rest)) :
    ∃ l r, t = .branch (joined lead rest) [l, r] ∧ l.Of bodies (capture "lead" (map reindent lead)) ∧
      r.Of bodies (capture "rest" rest) ∧ t.value = .text (l.value.flatten ++ r.value.flatten) := by
  obtain ⟨ts, rfl, hts⟩ | ⟨hnull, -⟩ := h.exists_parts
  · obtain _ | ⟨hl, _ | ⟨hr, _ | _⟩⟩ := hts
    refine ⟨_, _, rfl, hl, hr, ?_⟩
    refine (value_rendered renderJoined _ _).trans ?_
    rw [renderJoined, fieldText_fields, fieldText_fields]
    · cases lead <;> cases rest <;> rfl
    · cases lead <;> rfl
    · cases lead <;> rfl
  · cases hnull

theorem exists_of_default (h : t.Of bodies
    (capture "default" (nullable (sequence [blanks, literal "=", blanks, capture "value" default])))) :
    (∃ b e b' v, t = .branch (capture "default" (nullable
        (sequence [blanks, literal "=", blanks, capture "value" default]))) [b, e, b', v] ∧
      v.Of bodies (capture "value" default) ∧ t.value.field? "value" = some v.value) ∨
    t = .skipped (capture "default" (nullable
      (sequence [blanks, literal "=", blanks, capture "value" default]))) := by
  obtain ⟨ts, rfl, hts⟩ | ⟨-, rfl⟩ := h.exists_parts
  · obtain _ | ⟨-, _ | ⟨-, _ | ⟨-, _ | ⟨hv, _ | _⟩⟩⟩⟩ := hts
    exact .inl ⟨_, _, _, _, rfl, hv, (field?_branch rfl rfl _ _).trans rfl⟩
  · exact .inr rfl

theorem exists_of_param (h : t.Of bodies param) :
    ∃ n m a d, t = .branch param [n, m, a, d] ∧
      n.Of bodies (capture "name" (choice
        [regex "(?:\\.\\.\\.)?[A-Za-z_$][A-Za-z0-9_$]*", reference "group"])) ∧
      d.Of bodies (capture "default"
        (nullable (sequence [blanks, literal "=", blanks, capture "value" default]))) ∧
      t.value = .text (match d.value.field? "value" with
        | some v => n.value.flatten ++ " = " ++ String.ofList (Text.trimEnd v.flatten.toList)
        | none => n.value.flatten) := by
  obtain ⟨ts, rfl, hts⟩ | ⟨hnull, -⟩ := h.exists_parts
  · obtain _ | ⟨hn, _ | ⟨-, _ | ⟨-, _ | ⟨hd, _ | _⟩⟩⟩⟩ := hts
    refine ⟨_, _, _, _, rfl, hn, hd, ?_⟩
    refine (value_rendered renderParam _ _).trans ?_
    rw [renderParam, inner?_fields rfl, fieldText_fields rfl]
    change (match (value _).field? "value" with | some _ => _ | none => _) = _
    split <;> rfl
  · cases hnull

theorem exists_of_furtherParam (h : t.Of bodies furtherParam) :
    ∃ b c b' p, t = .branch furtherParam [b, c, b', p] ∧ p.Of bodies (capture "param" param) ∧
      t.value = p.value := by
  obtain ⟨ts, rfl, hts⟩ | ⟨hnull, -⟩ := h.exists_parts
  · obtain _ | ⟨-, _ | ⟨-, _ | ⟨-, _ | ⟨hp, _ | _⟩⟩⟩⟩ := hts
    refine ⟨_, _, _, _, rfl, hp, ?_⟩
    refine (value_rendered (field "param") _ _).trans ?_
    rw [field, field?_fields rfl]
    rfl
  · cases hnull

theorem exists_of_params (h : t.Of bodies params) :
    t = .skipped params ∨ ∃ first rest trailing, t = .branch params
        [first, .branch (capture "rest" (repetition furtherParam)) rest, trailing] ∧
      first.Of bodies (capture "first" param) ∧ (∀ u ∈ rest, u.Of bodies furtherParam) ∧
      t.value = .text (", ".intercalate (first.value.flatten :: rest.map (·.value.flatten))) := by
  obtain ⟨ts, rfl, hts⟩ | ⟨-, rfl⟩ := h.exists_parts
  · obtain _ | ⟨hfirst, _ | ⟨hrest, _ | ⟨-, _ | _⟩⟩⟩ := hts
    obtain ⟨rest, rfl, hall⟩ := hrest.exists_rounds rfl
    refine .inr ⟨_, _, _, rfl, hfirst, hall, ?_⟩
    refine (value_rendered renderParams _ _).trans ?_
    rw [renderParams, fieldText_fields rfl, field?_fields rfl]
    change Value.text (", ".intercalate (_ :: (valueAll rest).map Value.flatten)) = _
    rw [valueAll_eq_map, List.map_map]
    rfl
  · exact .inl rfl

theorem exists_of_arrowHead (h : t.Of bodies arrowHead) :
    ∃ o b p b' c r b'' a, t = .branch arrowHead [o, b, p, b', c, r, b'', a] ∧
      p.Of bodies (capture "params" params) ∧
      t.value = .text ("(" ++ p.value.flatten ++ ") =>") := by
  obtain ⟨ts, rfl, hts⟩ | ⟨hnull, -⟩ := h.exists_parts
  · obtain _ | ⟨-, _ | ⟨-, _ | ⟨hp, _ | ⟨-, _ | ⟨-, _ | ⟨-, _ | ⟨-, _ | ⟨-, _ | _⟩⟩⟩⟩⟩⟩⟩⟩ := hts
    refine ⟨_, _, _, _, _, _, _, _, rfl, hp, ?_⟩
    refine (value_rendered renderArrowHead _ _).trans ?_
    rw [renderArrowHead, fieldText_fields rfl]
    rfl
  · cases hnull

/-! ## Statements -/

theorem exists_of_function (h : t.Of bodies function) :
    ∃ k s b n b' g b'' o b₃ p b₄ c a b₅ body,
      t = .branch function [k, s, b, n, b', g, b'', o, b₃, p, b₄, c, a, b₅, body] ∧
      k.Of bodies (capture "head"
        (regex "(?:export\\s+)?(?:default\\s+)?(?:async\\s+)?function\\b")) ∧
      s.Of bodies (capture "star" (nullable (regex "\\s*\\*"))) ∧
      n.Of bodies (capture "name" (nullable identifier)) ∧
      p.Of bodies (capture "params" params) ∧ body.Of bodies (capture "body" (reference "block")) ∧
      t.value = .text (Text.normalizeSpace k.value.flatten ++ (if !s.value.isNull then "*" else "") ++
        (if n.value.flatten.isEmpty then n.value.flatten else " " ++ n.value.flatten) ++ "(" ++
        p.value.flatten ++ ") " ++ body.value.flatten) := by
  obtain ⟨ts, rfl, hts⟩ | ⟨hnull, -⟩ := h.exists_parts
  · obtain _ | ⟨hk, _ | ⟨hs, _ | ⟨-, _ | ⟨hn, _ | ⟨-, _ | ⟨-, _ | ⟨-, _ | ⟨-, _ | ⟨-, _ | ⟨hp,
      _ | ⟨-, _ | ⟨-, _ | ⟨-, _ | ⟨-, _ | ⟨hbody, _ | _⟩⟩⟩⟩⟩⟩⟩⟩⟩⟩⟩⟩⟩⟩⟩ := hts
    refine ⟨_, _, _, _, _, _, _, _, _, _, _, _, _, _, _, rfl, hk, hs, hn, hp, hbody, ?_⟩
    refine (value_rendered renderFunction _ _).trans ?_
    rw [renderFunction, field?_fields rfl, fieldText_fields rfl, fieldText_fields rfl,
      fieldText_fields rfl, fieldText_fields rfl]
    rfl
  · cases hnull

theorem exists_of_otherwise (h : t.Of bodies (capture "otherwise" (nullable otherwise))) :
    (∃ b e b' s, t = .branch (capture "otherwise" (nullable otherwise)) [b, e, b', s] ∧
      s.Of bodies (capture "statement" (reference "statement")) ∧
      t.value.field? "statement" = some s.value) ∨
    t = .skipped (capture "otherwise" (nullable otherwise)) := by
  obtain ⟨ts, rfl, hts⟩ | ⟨-, rfl⟩ := h.exists_parts
  · obtain _ | ⟨-, _ | ⟨-, _ | ⟨-, _ | ⟨hs, _ | _⟩⟩⟩⟩ := hts
    exact .inl ⟨_, _, _, _, rfl, hs, (field?_branch rfl rfl _ _).trans rfl⟩
  · exact .inr rfl

theorem exists_of_conditional (h : t.Of bodies conditional) :
    ∃ i b c b' s o, t = .branch conditional [i, b, c, b', s, o] ∧
      c.Of bodies (capture "test" (reference "parens")) ∧
      s.Of bodies (capture "then" (reference "statement")) ∧
      o.Of bodies (capture "otherwise" (nullable otherwise)) ∧
      t.value = .text ("if " ++ c.value.flatten ++ " " ++ s.value.flatten ++
        match o.value.field? "statement" with
        | some v => " else " ++ v.flatten
        | none => "") := by
  obtain ⟨ts, rfl, hts⟩ | ⟨hnull, -⟩ := h.exists_parts
  · obtain _ | ⟨-, _ | ⟨-, _ | ⟨hc, _ | ⟨-, _ | ⟨hs, _ | ⟨ho, _ | _⟩⟩⟩⟩⟩⟩ := hts
    refine ⟨_, _, _, _, _, _, rfl, hc, hs, ho, ?_⟩
    refine (value_rendered renderIf _ _).trans ?_
    rw [renderIf, inner?_fields rfl, fieldText_fields rfl, fieldText_fields rfl]
    rfl
  · cases hnull

theorem exists_of_loop (h : t.Of bodies loop) :
    ∃ k b c b' s, t = .branch loop [k, b, c, b', s] ∧
      k.Of bodies (capture "keyword" (regex "(?:while|for)\\b")) ∧
      c.Of bodies (capture "head" (reference "parens")) ∧
      s.Of bodies (capture "body" (reference "statement")) ∧
      t.value = .text (k.value.flatten ++ " " ++ c.value.flatten ++ " " ++ s.value.flatten) := by
  obtain ⟨ts, rfl, hts⟩ | ⟨hnull, -⟩ := h.exists_parts
  · obtain _ | ⟨hk, _ | ⟨-, _ | ⟨hc, _ | ⟨-, _ | ⟨hs, _ | _⟩⟩⟩⟩⟩ := hts
    refine ⟨_, _, _, _, _, rfl, hk, hc, hs, ?_⟩
    refine (value_rendered renderLoop _ _).trans ?_
    rw [renderLoop, fieldText_fields rfl, fieldText_fields rfl, fieldText_fields rfl]
    rfl
  · cases hnull

theorem exists_of_initializer (h : t.Of bodies (capture "init" (nullable initializer))) :
    (∃ b e b' v, t = .branch (capture "init" (nullable initializer)) [b, e, b', v] ∧
      v.Of bodies (capture "value" expression) ∧ t.value.field? "value" = some v.value) ∨
    t = .skipped (capture "init" (nullable initializer)) := by
  obtain ⟨ts, rfl, hts⟩ | ⟨-, rfl⟩ := h.exists_parts
  · obtain _ | ⟨-, _ | ⟨-, _ | ⟨-, _ | ⟨hv, _ | _⟩⟩⟩⟩ := hts
    exact .inl ⟨_, _, _, _, rfl, hv, (field?_branch rfl rfl _ _).trans rfl⟩
  · exact .inr rfl

theorem exists_of_binding (h : t.Of bodies binding) :
    ∃ k b n m a i s, t = .branch binding [k, b, n, m, a, i, s] ∧
      k.Of bodies (capture "kind" (regex "(?:export\\s+)?(?:let|const|var)\\b")) ∧
      n.Of bodies (capture "name" (choice [identifier, reference "group"])) ∧
      i.Of bodies (capture "init" (nullable initializer)) ∧
      t.value = .text (Text.normalizeSpace k.value.flatten ++ " " ++ n.value.flatten ++
        (match i.value.field? "value" with
          | some v => " = " ++ v.flatten
          | none => "") ++ ";") := by
  obtain ⟨ts, rfl, hts⟩ | ⟨hnull, -⟩ := h.exists_parts
  · obtain _ | ⟨hk, _ | ⟨-, _ | ⟨hn, _ | ⟨-, _ | ⟨-, _ | ⟨hi, _ | ⟨-, _ | _⟩⟩⟩⟩⟩⟩⟩ := hts
    refine ⟨_, _, _, _, _, _, _, rfl, hk, hn, hi, ?_⟩
    refine (value_rendered renderVar _ _).trans ?_
    rw [renderVar, inner?_fields rfl, fieldText_fields rfl, fieldText_fields rfl]
    rfl
  · cases hnull

theorem exists_of_argument (h : t.Of bodies (capture "argument" (nullable argument))) :
    (∃ b v, t = .branch (capture "argument" (nullable argument)) [b, v] ∧
      v.Of bodies (capture "value" expression) ∧ t.value.field? "value" = some v.value) ∨
    t = .skipped (capture "argument" (nullable argument)) := by
  obtain ⟨ts, rfl, hts⟩ | ⟨-, rfl⟩ := h.exists_parts
  · obtain _ | ⟨-, _ | ⟨hv, _ | _⟩⟩ := hts
    exact .inl ⟨_, _, rfl, hv, (field?_branch rfl rfl _ _).trans rfl⟩
  · exact .inr rfl

theorem exists_of_returned (h : t.Of bodies returned) :
    ∃ r a s, t = .branch returned [r, a, s] ∧
      a.Of bodies (capture "argument" (nullable argument)) ∧
      t.value = match a.value.field? "value" with
        | some v => .text ("return " ++ v.flatten ++ ";")
        | none => .text "return;" := by
  obtain ⟨ts, rfl, hts⟩ | ⟨hnull, -⟩ := h.exists_parts
  · obtain _ | ⟨-, _ | ⟨ha, _ | ⟨-, _ | _⟩⟩⟩ := hts
    refine ⟨_, _, _, rfl, ha, ?_⟩
    refine (value_rendered renderReturn _ _).trans ?_
    rw [renderReturn, inner?_fields rfl]
    rfl
  · cases hnull

theorem exists_of_standing (h : t.Of bodies standing) :
    ∃ e s, t = .branch standing [e, s] ∧ e.Of bodies (capture "expression" expression) ∧
      t.value = .text (e.value.flatten ++ ";") := by
  obtain ⟨ts, rfl, hts⟩ | ⟨hnull, -⟩ := h.exists_parts
  · obtain _ | ⟨he, _ | ⟨-, _ | _⟩⟩ := hts
    refine ⟨_, _, rfl, he, ?_⟩
    refine (value_rendered renderExpression _ _).trans ?_
    rw [renderExpression, fieldText_fields rfl]
    rfl
  · cases hnull

theorem exists_of_next (h : t.Of bodies next) :
    ∃ b s, t = .branch next [b, s] ∧ s.Of bodies (capture "statement" (reference "statement")) ∧
      t.value = s.value := by
  obtain ⟨ts, rfl, hts⟩ | ⟨hnull, -⟩ := h.exists_parts
  · obtain _ | ⟨-, _ | ⟨hs, _ | _⟩⟩ := hts
    refine ⟨_, _, rfl, hs, ?_⟩
    refine (value_rendered (field "statement") _ _).trans ?_
    rw [field, field?_fields rfl]
    rfl
  · cases hnull

/-- The texts of statements that are not empty. -/
def lines (ts : List Tree) : List String :=
  (ts.map (·.value.flatten)).filter (!·.isEmpty)

theorem statementLines_fields {ns : List Node} {ts us : List Tree}
    (hcapture : ns.any (·.attributes.capture.isSome) = true)
    (hbody : captured "body" ns ts = some (.branch (capture "body" (repetition next)) us)) :
    statementLines (fields ns ts) = lines us := by
  rw [statementLines, field?_fields hcapture, hbody, lines]
  change List.filter _ ((valueAll us).map Value.flatten) = _
  rw [valueAll_eq_map, List.map_map]
  rfl

theorem exists_of_block (h : t.Of bodies (reference "block")) :
    ∃ o us b c, t = .branch (reference "block")
        [.branch block [o, .branch (capture "body" (repetition next)) us, b, c]] ∧
      (∀ u ∈ us, u.Of bodies next) ∧
      t.value = if (lines us).isEmpty then .text "\x7b\x7d" else
        .text ("\x7b\n" ++ "\n".intercalate ((lines us).map indent) ++ "\n\x7d") := by
  obtain ⟨u, rfl, hu⟩ := h.exists_body rfl rfl
  obtain ⟨ts, rfl, hts⟩ | ⟨hnull, -⟩ := hu.exists_parts
  · obtain _ | ⟨-, _ | ⟨hbody, _ | ⟨-, _ | ⟨-, _ | _⟩⟩⟩⟩ := hts
    obtain ⟨us, rfl, hus⟩ := hbody.exists_rounds rfl
    refine ⟨_, us, _, _, rfl, hus, ?_⟩
    refine (value_rendered renderBlock _ _).trans ?_
    rw [renderBlock, statementLines_fields rfl rfl]
  · cases hnull

theorem exists_of_program (h : t.Of bodies program) :
    ∃ us b, t = .branch program [.branch (capture "body" (repetition next)) us, b] ∧
      (∀ u ∈ us, u.Of bodies next) ∧
      t.value = if (lines us).isEmpty then .text "" else
        .text ("\n".intercalate (lines us) ++ "\n") := by
  obtain ⟨ts, rfl, hts⟩ | ⟨hnull, -⟩ := h.exists_parts
  · obtain _ | ⟨hbody, _ | ⟨-, _ | _⟩⟩ := hts
    obtain ⟨us, rfl, hus⟩ := hbody.exists_rounds rfl
    refine ⟨us, _, rfl, hus, ?_⟩
    refine (value_rendered renderProgram _ _).trans ?_
    rw [renderProgram, statementLines_fields rfl rfl]
  · cases hnull

theorem value_of_erased {n : Node} (hn : n ∈ erased ++ [empty]) (h : t.Of bodies n) :
    t.value = .text "" := by
  have hrendered {ns : List Node} (h : t.Of bodies (map erase (sequence ns))) :
      t.value = .text "" := by
    obtain ⟨u, hu, rfl, hvalue⟩ := h.exists_of_map rfl
    exact hvalue
  simp only [erased, List.cons_append, List.nil_append, List.mem_cons, List.not_mem_nil,
    or_false] at hn
  rcases hn with rfl | rfl | rfl | rfl | rfl
  · exact hrendered h
  · exact hrendered h
  · exact hrendered h
  · exact hrendered h
  · obtain ⟨u, hu, rfl, hvalue⟩ := h.exists_of_map rfl
    exact hvalue

theorem exists_of_statement (h : t.Of bodies (reference "statement")) :
    ∃ n u, t = .branch (reference "statement") [.branch statement [u]] ∧
      n ∈ [comment] ++ erased ++
        [function, conditional, loop, binding, returned, reference "block", empty, standing] ∧
      u.Of bodies n ∧ t.value = u.value := by
  obtain ⟨v, rfl, hv⟩ := h.exists_body rfl rfl
  obtain ⟨n, hn, u, rfl, hu⟩ := hv.exists_alternative rfl
  exact ⟨n, u, rfl, hn, hu, rfl⟩

end Form

/-! ## The trees of a parse -/

/-- The registries of both parsers are that of the grammar. -/
theorem Parsers.compile_of_mem {parsers : Parsers} (hparsers : Parsers.compiled = .ok parsers)
    {p : Parser} (hp : p ∈ [parsers.program, parsers.statement]) :
    ∃ root member, Parser.compile (grammar.run {}).2.registry root = .ok p ∧
      Family p.rules member ∧ Identified member ∧ member p.root := by
  obtain ⟨member, F, hid, hprogram, hstatement⟩ := Parsers.exists_family hparsers
  obtain ⟨hcompile, hcompile'⟩ := Parsers.eq_of_compiled hparsers
  simp only [List.mem_cons, List.not_mem_nil, or_false] at hp
  rcases hp with rfl | rfl
  · exact ⟨_, member, hcompile, F, hid, hprogram⟩
  · exact ⟨_, member, hcompile', Parsers.rules_statement hparsers ▸ F, hid, hstatement⟩

/-- The match of a program is recorded by a tree of the form of programs. -/
theorem Parsers.exists_grows {parsers : Parsers} (hparsers : Parsers.compiled = .ok parsers)
    {options : Options} {source : List Char} {s : Success}
    (h : parsers.program.parse options source = .ok s) :
    ∃ k t, Grows Form.bodies k source 0 Form.program 0 t ∧ s = t.success := by
  obtain ⟨member, F, hid, hroot, -⟩ := Parsers.exists_family hparsers
  obtain ⟨k, hyields⟩ :=
    Parser.exists_yields (Parsers.eq_of_compiled hparsers).1 F hid hroot h
  obtain ⟨hbodies, hprogram, -⟩ := grammar_forms
  have hform := hyields.form
  rw [hbodies, hprogram] at hform
  obtain ⟨t, ht, hs⟩ := hform.exists_grows s rfl
  exact ⟨k, t, ht, hs⟩

/-- The match of a node that is asked for in a parse is recorded by a tree of the form of the
node. -/
theorem Parsers.exists_grows_of_ask {parsers : Parsers} (hparsers : Parsers.compiled = .ok parsers)
    {p : Parser} (hp : p ∈ [parsers.program, parsers.statement]) {options : Options}
    {source : List Char} {x : Frame} (hx : p.Reaches options source x) {n : Node} {m : Matcher}
    (hn : n.compile (grammar.run {}).2.registry = .ok m) (htask : x.task = .ask m) {s : Success}
    {memo : Memo}
    (h : memoized m.attributes.id (m.evaluate p.rules (enter p.rules options.maxDepth x.left))
      x.pos x.rest x.memo = (.ok s, memo)) :
    Text.fromBoundary? source x.pos = some x.rest ∧
      ∃ k t, Grows Form.bodies k source 0 n.form x.pos t ∧ s = t.success := by
  obtain ⟨root, member, hcompile, F, hid, hroot⟩ := Parsers.compile_of_mem hparsers hp
  obtain ⟨hpos, k, hyields⟩ :=
    Parser.exists_yields_of_ask hcompile F hid hroot hx htask hn h
  have hform := hyields.form
  rw [grammar_forms.1] at hform
  obtain ⟨t, ht, hs⟩ := hform.exists_grows s rfl
  exact ⟨hpos, k, t, ht, hs⟩

/-- The tree of a source that is accepted: it is a program, all of the source was matched, and the
JavaScript is its value. -/
theorem Transpiler.exists_grows {settings : Settings} {t : Transpiler}
    (ht : Transpiler.ofSettings settings = .ok t) {source : List Char} {code : String}
    (h : t.transform source = .success code) :
    ∃ k tree, Grows Form.bodies k source 0 Form.program 0 tree ∧ tree.text = source ∧
      tree.value.flatten = code := by
  obtain ⟨parsers, hparsers, rfl⟩ := eq_of_ofSettings ht
  rw [transform] at h
  split at h
  · next s hs =>
    obtain rfl : s.value.flatten = code := Option.some.inj (congrArg Output.code h)
    obtain ⟨k, tree, htree, rfl⟩ := Parsers.exists_grows hparsers hs
    refine ⟨k, tree, htree, ?_, rfl⟩
    obtain ⟨after, hafter⟩ := htree.exists_after (Text.fromBoundary?_zero source)
    have hall : ¬ Text.width tree.text < Text.width source := Parser.not_lt_of_matchAll rfl hs
    cases after with
    | nil => rw [hafter, List.append_nil]
    | cons c after =>
      have hpos := c.utf8Size_pos
      rw [hafter, Text.width_append, Text.width_cons] at hall
      omega
  · cases h
  · cases h

end Typestrip.TypeScript
