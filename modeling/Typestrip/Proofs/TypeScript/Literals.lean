import Typestrip.Proofs.TypeScript.Quotation
import Typestrip.Proofs.TypeScript.Trees

/-!
# Strings and template literals

The strings of a source are found in its JavaScript as they are, in the same order, unless they are
parts of types or of declarations that are erased. Blocks are indented line by line, and where an
indented text has strings in it, the lines of template literals are told from others by the quotation
marks. So this depends on there being no quotation marks outside of strings
(`Transpiler.transform_strings`). A mark in a comment or in a regular expression literal is taken for
the beginning of a string, and a template literal behind it is indented with the rest of the text
(`Transpiler.transform_open_mark`).
-/

namespace Typestrip.TypeScript

open Grammar Grammar.Tree

namespace Form

open Grammar.Form

/-- Whether a node matches strings and template literals. -/
def isString : Node → Bool
  | .terminal _ (.regex source) => source == stringSource
  | _ => false

mutual
/-- The strings and template literals in order that the value of a match is made of: of the parts of
a sequence those that are kept, if some are, and none if a function is applied to their text. -/
def strings : Tree → List (List Char)
  | .leaf n text => if isString n then [text] else []
  | .skipped _ => []
  | .branch (.sequence a ns) ts =>
    if ns.any (·.attributes.capture.isSome) then stringsKept ns ts
    else if a.reshape.isNone then stringsAll ts else []
  | .branch _ ts => stringsAll ts

/-- The strings of parts in a row. -/
def stringsAll : List Tree → List (List Char)
  | [] => []
  | t :: ts => strings t ++ stringsAll ts

/-- The strings of the parts that are kept. -/
def stringsKept : List Node → List Tree → List (List Char)
  | n :: ns, t :: ts =>
    if n.attributes.capture.isSome then strings t ++ stringsKept ns ts else stringsKept ns ts
  | _, _ => []
end

/-- The patterns for text that is kept as it is and may have quotation marks in it: comments, operators
with comments behind them, and regular expression literals. -/
def free : List String :=
  ["//[^\\n]*|/\\*[\\s\\S]*?\\*/", "/\\*[\\s\\S]*?\\*/",
    "(?:[-+*%&|^<>=?:,.]+(?:\\s|//[^\\n]*)*)+", regexSource]

/-- No comment and no regular expression literal of the match has a quotation mark in it. -/
def Quiet (t : Tree) : Prop :=
  ∀ a source text, source ∈ free → (Tree.leaf (.terminal a (.regex source)) text).Within t →
    Unquoted text

/-- The value of the match is spelled with its strings. -/
def Spells (t : Tree) : Prop := Spelled (strings t) t.value.flatten.toList

variable {t u : Tree} {n : Node} {name : String}

theorem Quiet.of_within (h : Quiet t) (hu : u.Within t) : Quiet u :=
  fun a source text hsource hleaf => h a source text hsource (hu.trans hleaf)

theorem Quiet.of_recast {change : Attributes → Attributes}
    (h : Quiet (t.recast (derive change t.node))) : Quiet t := by
  intro a source text hsource hleaf
  rcases hleaf.recast (derive change t.node) with rfl | hleaf
  · exact h (change a) source text hsource .self
  · exact h a source text hsource hleaf

theorem strings_of_captures {a : Attributes} {ns : List Node}
    (h : ns.any (·.attributes.capture.isSome) = true) (ts : List Tree) :
    strings (.branch (.sequence a ns) ts) = stringsKept ns ts :=
  if_pos h

theorem stringsAll_eq_flatMap (ts : List Tree) : stringsAll ts = ts.flatMap strings := by
  induction ts with
  | nil => rfl
  | cons t ts ih => rw [stringsAll, ih, List.flatMap_cons]

/-- What was matched for a node. -/
def parts : Tree → List Tree
  | .branch _ parts => parts
  | _ => []

/-- Keeping the value of a match under a name changes neither its strings nor its value. -/
theorem exists_of_kept (h : t.Of bodies (capture name n)) (ht : Quiet t) :
    ∃ u : Tree, u.Of bodies n ∧ Quiet u ∧ parts u = parts t ∧ (Spells u → Spells t) := by
  obtain ⟨u, hu, rfl, hvalue⟩ := h.exists_of_capture
  obtain rfl := hu.node_eq
  refine ⟨u, hu, ht.of_recast, by cases u <;> rfl, fun hspells => ?_⟩
  have hstrings : strings (u.recast (capture name u.node)) = strings u := by
    cases u with
    | skipped => rfl
    | leaf m =>
      cases m with
      | terminal a p => cases p <;> rfl
      | _ => rfl
    | branch m => cases m <;> rfl
  rwa [Spells, hstrings, hvalue]

theorem spells_of_capture (h : t.Of bodies (capture name n)) (ht : Quiet t)
    (hn : ∀ u : Tree, u.Of bodies n → Quiet u → Spells u) : Spells t := by
  obtain ⟨u, hu, hu', -, hspells⟩ := exists_of_kept h ht
  exact hspells (hn u hu hu')

/-! ## Terminals -/

theorem quotation_of_string (h : t.Of bodies string) : Quotation t.text := by
  cases h with
  | skipped hnull => cases hnull
  | regex hregex h => exact quotation_of_search? hregex h

theorem spelled_of_string (h : t.Of bodies string) : Spelled (strings t) t.text := by
  have hspelled := Spelled.of_quotation (quotation_of_string h)
  obtain ⟨text, rfl, -⟩ := value_of_regex h
  exact hspelled

/-- What is kept as it is and is spelled with its strings has the strings in its value. -/
theorem spells_of_spelled (hvalue : t.value = .text (String.ofList t.text))
    (h : Spelled (strings t) t.text) : Spells t := by
  rwa [Spells, hvalue, Value.flatten, String.toList_ofList]

/-- Text without quotation marks that is kept as it is. -/
theorem spelled_of_unquoted {source : String} (hsource : (source == stringSource) = false)
    (h : t.Of bodies (regex source)) (ht : Unquoted t.text) : Spelled (strings t) t.text := by
  obtain ⟨text, rfl, -⟩ := value_of_regex h
  have hstrings : strings (.leaf (regex source) text) = [] := by
    show (if (source == stringSource) = true then [text] else []) = []
    rw [hsource]
    rfl
  rw [hstrings]
  exact .of_unquoted ht

theorem unquoted_of_regex {a : Attributes} {source : String} (hsource : takesNoMark source = true)
    (h : t.Of bodies (.terminal a (.regex source))) : Unquoted t.text := by
  cases h with
  | skipped => exact fun c hc => absurd hc List.not_mem_nil
  | regex hregex h => exact unquoted_of_search? hsource hregex h

/-- The pattern matches no quotation marks, and is not that for strings. -/
def plainSource (source : String) : Bool := takesNoMark source && source != stringSource

theorem ne_of_free {source : String} (hsource : source ∈ free) :
    (source == stringSource) = false := by
  have hne : ∀ source ∈ free, (source == stringSource) = false := by decide
  exact hne source hsource

theorem unquoted_of_free {source : String} (hsource : source ∈ free) (h : t.Of bodies (regex source))
    (ht : Quiet t) : Unquoted t.text := by
  obtain ⟨text, rfl, -⟩ := value_of_regex h
  exact ht _ source text hsource .self

theorem spelled_of_plain {source : String} (hsource : plainSource source = true)
    (h : t.Of bodies (regex source)) : Spelled (strings t) t.text := by
  obtain ⟨hmark, hne⟩ := Bool.and_eq_true_iff.mp hsource
  exact spelled_of_unquoted (by simpa using hne) h (unquoted_of_regex hmark h)

theorem spells_of_regex {source : String} (h : t.Of bodies (regex source))
    (hspelled : Spelled (strings t) t.text) : Spells t := by
  obtain ⟨text, rfl, hvalue⟩ := value_of_regex h
  exact spells_of_spelled hvalue hspelled

theorem spells_of_free {source : String} (hsource : source ∈ free)
    (h : t.Of bodies (regex source)) (ht : Quiet t) : Spells t :=
  spells_of_regex h (spelled_of_unquoted (ne_of_free hsource) h (unquoted_of_free hsource h ht))

/-! ## Groups -/

theorem spelled_of_items {ts : List Tree} (h : ∀ t ∈ ts, Spelled (strings t) t.text) :
    Spelled (stringsAll ts) (textAll ts) := by
  induction ts with
  | nil => exact .nil
  | cons t ts ih =>
    obtain ⟨ht, hts⟩ := List.forall_mem_cons.mp h
    exact ht.append (ih hts)

/-- The only part of a match is spelled as the match is. -/
theorem spelled_of_part (hstrings : strings (.branch n [u]) = stringsAll [u])
    (h : Spelled (strings u) u.text) : Spelled (strings (.branch n [u])) (text (.branch n [u])) :=
  hstrings ▸ spelled_of_items (List.forall_mem_singleton.mpr h)

theorem plainSource_chunk : plainSource "[^()\\[\\]\x7b\x7d\"'`]+" = true := by decide +kernel

/-- Groups are spelled with the strings in them. -/
theorem spelled_of_enclosed {t : Tree} {rule : String} (hrule : rule ∈ groupNames)
    (h : t.Of bodies (reference rule)) : Spelled (strings t) t.text := by
  obtain ⟨opening, closing, items, ht, hmarks, hitems, -⟩ := exists_of_enclosed hrule h
  have hspelled : Spelled (stringsAll items) (textAll items) := by
    refine spelled_of_items fun u hu => ?_
    obtain ⟨n, hn, v, hv, hof⟩ := (hitems u hu).exists_alternative rfl
    rw [hv]
    refine spelled_of_part rfl ?_
    simp only [List.mem_cons, List.not_mem_nil, or_false] at hn
    rcases hn with rfl | rfl | rfl
    · exact spelled_of_string hof
    · obtain ⟨rule', hrule', w, hw, hof', -⟩ := exists_of_group hof
      have hsize : sizeOf w < sizeOf t := by
        have hmem := List.sizeOf_lt_of_mem hu
        rw [ht]
        rw [hv, hw] at hmem
        simp at hmem ⊢
        omega
      rw [hw]
      exact spelled_of_part rfl (spelled_of_part rfl (spelled_of_enclosed hrule' hof'))
    · exact spelled_of_plain plainSource_chunk hof
  have hunquoted : ∀ pair ∈ [("(", ")"), ("[", "]"), ("\x7b", "\x7d")],
      Unquoted pair.1.toList ∧ Unquoted pair.2.toList := by decide
  obtain ⟨hopening, hclosing⟩ := hunquoted _ hmarks
  rw [ht]
  refine spelled_of_part rfl (spelled_of_items ?_)
  simp only [List.forall_mem_cons]
  exact ⟨.of_unquoted hopening, hspelled, .of_unquoted hclosing, nofun⟩
termination_by sizeOf t
decreasing_by omega

theorem spells_of_enclosed {rule : String} (hrule : rule ∈ groupNames)
    (h : t.Of bodies (reference rule)) : Spells t := by
  obtain ⟨-, -, -, -, -, -, hvalue⟩ := exists_of_enclosed hrule h
  exact spells_of_spelled hvalue (spelled_of_enclosed hrule h)

theorem spells_of_group (h : t.Of bodies (reference "group")) : Spells t := by
  obtain ⟨rule, hrule, u, rfl, hu, hvalue⟩ := exists_of_group h
  have hstrings : strings (.branch (reference "group") [.branch group [u]]) = strings u ++ [] ++ [] :=
    rfl
  rw [Spells, hstrings, List.append_nil, List.append_nil, hvalue]
  exact spells_of_enclosed hrule hu

/-! ## Runs and parameters -/

theorem strings_runTree (pieces : List Node) (head : Tree) (tail : List Tree) :
    strings (runTree pieces head tail) = (head :: tail).flatMap strings := by
  have htail : stringsAll (tail.map fun u => .branch (choice pieces) [u]) = tail.flatMap strings := by
    rw [stringsAll_eq_flatMap, List.flatMap_map]
    exact List.flatMap_congr fun u _ => List.append_nil _
  calc strings (runTree pieces head tail)
      = (strings head ++ []) ++
          (stringsAll (tail.map fun u => .branch (choice pieces) [u]) ++ []) := rfl
    _ = (head :: tail).flatMap strings := by
      rw [htail, List.append_nil, List.append_nil, List.flatMap_cons]

theorem spelled_flatMap {ts : List Tree} (h : ∀ t ∈ ts, Spells t) :
    Spelled (ts.flatMap strings) (ts.flatMap (·.value.flatten.toList)) := by
  induction ts with
  | nil => exact .nil
  | cons t ts ih =>
    obtain ⟨ht, hts⟩ := List.forall_mem_cons.mp h
    exact ht.append (ih hts)

theorem spells_of_run {pieces : List Node} (h : t.Of bodies (run pieces)) (ht : Quiet t)
    (hpieces : ∀ n ∈ pieces, ∀ u : Tree, u.Of bodies n → Quiet u → Spells u) : Spells t := by
  obtain ⟨head, tail, rfl, hall, hvalue⟩ := exists_of_run h
  rw [Spells, strings_runTree, hvalue]
  refine spelled_flatMap fun u hu => ?_
  obtain ⟨n, hn, hof⟩ := hall u hu
  exact hpieces n hn u hof (ht.of_within (within_runTree hu))

theorem plainSource_default :
    plainSource "[^,;\x7b\x7d()\\[\\]\"'`\\n/]+" = true := by decide +kernel

theorem spells_of_default (h : t.Of bodies default) (ht : Quiet t) : Spells t := by
  refine spells_of_run h ht fun n hn u hu _ => ?_
  simp only [List.mem_cons, List.not_mem_nil, or_false] at hn
  rcases hn with rfl | rfl | rfl
  · exact spells_of_regex hu (spelled_of_string hu)
  · exact spells_of_group hu
  · exact spells_of_regex hu (spelled_of_plain plainSource_default hu)

theorem plainSource_name :
    plainSource "(?:\\.\\.\\.)?[A-Za-z_$][A-Za-z0-9_$]*" = true := by decide +kernel

/-- What one of some pieces matched is spelled with its strings. -/
theorem spells_of_choice {pieces : List Node} (h : t.Of bodies (choice pieces)) (ht : Quiet t)
    (hpieces : ∀ n ∈ pieces, ∀ u : Tree, u.Of bodies n → Quiet u → Spells u) : Spells t := by
  obtain ⟨n, hn, u, rfl, hu⟩ := h.exists_alternative rfl
  have hspells : Spells u := hpieces n hn u hu (ht.of_within (.of_part (List.mem_singleton_self u)))
  rw [Spells, ← List.append_nil (strings u)] at hspells
  exact hspells

theorem spells_of_param (h : t.Of bodies param) (ht : Quiet t) : Spells t := by
  obtain ⟨n, m, a, d, rfl, hn, hd, hvalue⟩ := exists_of_param h
  have hname : Spells n := by
    refine spells_of_capture hn (ht.of_within (.of_part (by simp))) fun u hu hu' =>
      spells_of_choice hu hu' fun n hn v hv _ => ?_
    simp only [List.mem_cons, List.not_mem_nil, or_false] at hn
    rcases hn with rfl | rfl
    · exact spells_of_regex hv (spelled_of_plain plainSource_name hv)
    · exact spells_of_group hv
  have hstrings : strings (.branch param [n, m, a, d]) = strings n ++ (strings d ++ []) := rfl
  rw [Spells, hstrings, List.append_nil, hvalue, Value.flatten]
  obtain ⟨b, e, b', v, rfl, hv, hfield⟩ | rfl := exists_of_default hd
  · have hspells : Spells v := by
      refine spells_of_capture hv (ht.of_within ?_) fun u => spells_of_default
      exact .inside (List.mem_of_mem_getLast? rfl) (.of_part (by simp))
    rw [hfield]
    have hdefault := hspells.trimEnd
    rw [← List.append_nil (strings v)] at hdefault
    refine (hname.after (by decide)).append_text ?_
    rw [String.toList_ofList]
    exact hdefault
  · exact (List.append_nil (strings n)).symm ▸ hname

theorem spells_of_furtherParam (h : t.Of bodies furtherParam) (ht : Quiet t) : Spells t := by
  obtain ⟨b, c, b', p, rfl, hp, hvalue⟩ := exists_of_furtherParam h
  have hspells : Spells p :=
    spells_of_capture hp (ht.of_within (.of_part (by simp))) fun u => spells_of_param
  have hstrings : strings (.branch furtherParam [b, c, b', p]) = strings p ++ [] := rfl
  rwa [Spells, hstrings, List.append_nil, hvalue]

theorem spells_of_params (h : t.Of bodies params) (ht : Quiet t) : Spells t := by
  obtain rfl | ⟨first, rest, trailing, rfl, hfirst, hrest, hvalue⟩ := exists_of_params h
  · exact .nil
  · have hstrings : strings (.branch params [first,
        .branch (capture "rest" (repetition furtherParam)) rest, trailing]) =
        strings first ++ (stringsAll rest ++ []) := rfl
    have hall : ∀ u ∈ first :: rest, Spells u := by
      refine List.forall_mem_cons.mpr ⟨?_, fun u hu => ?_⟩
      · exact spells_of_capture hfirst (ht.of_within (.of_part (by simp))) fun u => spells_of_param
      · refine spells_of_furtherParam (hrest u hu) (ht.of_within ?_)
        exact .inside (List.mem_cons_of_mem _ List.mem_cons_self) (.of_part hu)
    have hlist : Spelled ((first :: rest).flatMap strings)
        (", ".intercalate ((first :: rest).map fun u => u.value.flatten)).toList :=
      Spelled.intercalate (by decide) hall
    rwa [Spells, hstrings, List.append_nil, stringsAll_eq_flatMap, ← List.flatMap_cons, hvalue]

theorem spells_of_arrowHead (h : t.Of bodies arrowHead) (ht : Quiet t) : Spells t := by
  obtain ⟨o, b, p, b', c, r, b'', a, rfl, hp, hvalue⟩ := exists_of_arrowHead h
  have hstrings : strings (.branch arrowHead [o, b, p, b', c, r, b'', a]) = strings p ++ [] := rfl
  have hspells : Spells p :=
    spells_of_capture hp (ht.of_within (.of_part (by simp))) fun u => spells_of_params
  rw [Spells, hstrings, List.append_nil, hvalue]
  exact (hspells.before (by decide)).after (by decide)

/-! ## Expressions -/

theorem plainSource_operand : plainSource wordSource = true := by decide +kernel

theorem plainSource_lead : plainSource "/=?\\s*(?:[-+]\\s*)*" = true ∧
    plainSource "[ \\t]*\\r?\\n\\s*" = true := by decide +kernel

theorem spells_of_operand (hn : n ∈ operands) (h : t.Of bodies n) (ht : Quiet t) : Spells t := by
  simp only [operands, List.mem_cons, List.not_mem_nil, or_false] at hn
  rcases hn with rfl | rfl | rfl | rfl | rfl | rfl
  · exact spells_of_regex h (spelled_of_string h)
  · exact spells_of_free (by decide) h ht
  · exact spells_of_arrowHead h ht
  · exact spells_of_group h
  · exact spells_of_regex h (spelled_of_plain plainSource_operand h)
  · exact spells_of_free (by decide) h ht

theorem spells_of_lead {source : String} (h : t.Of bodies (map reindent (regex source)))
    (ht : Quiet t) (hsource : plainSource source = true ∨ source ∈ free) : Spells t := by
  obtain ⟨u, hu, rfl, hvalue⟩ := h.exists_of_map rfl
  have hu' : Quiet u := by
    rw [← hu.node_eq] at ht
    exact ht.of_recast
  have hplain : (source == stringSource) = false ∧ Unquoted u.text := by
    rcases hsource with hsource | hsource
    · obtain ⟨hmark, hne⟩ := Bool.and_eq_true_iff.mp hsource
      exact ⟨by simpa using hne, unquoted_of_regex hmark hu⟩
    · exact ⟨ne_of_free hsource, unquoted_of_free hsource hu hu'⟩
  obtain ⟨text, rfl, hvalue'⟩ := value_of_regex hu
  have hstrings : strings (.leaf (map reindent (regex source)) text) = [] := by
    show (if (source == stringSource) = true then [text] else []) = []
    rw [hplain.1]
    rfl
  rw [Spells, recast, hstrings, ← recast, hvalue, hvalue']
  refine .of_unquoted (unquoted_reindent ?_)
  rw [Value.flatten, String.toList_ofList]
  exact hplain.2

/-- An operator or a line break together with what comes after it. -/
theorem spells_of_joined {source : String} {rest : Node} (h : t.Of bodies (joined (regex source) rest))
    (ht : Quiet t) (hsource : plainSource source = true ∨ source ∈ free)
    (hrest : ∀ u : Tree, u.Of bodies rest → Quiet u → Spells u) : Spells t := by
  obtain ⟨l, r, rfl, hl, hr, hvalue⟩ := exists_of_joined h
  have hstrings : strings (.branch (joined (regex source) rest) [l, r]) =
      strings l ++ (strings r ++ []) := by
    cases rest <;> rfl
  have hlead : Spells l := spells_of_capture hl (ht.of_within (.of_part (by simp)))
    fun u hu hu' => spells_of_lead hu hu' hsource
  have hspells : Spells r := spells_of_capture hr (ht.of_within (.of_part (by simp))) hrest
  rw [Spells, hstrings, List.append_nil, hvalue]
  exact hlead.append_text hspells

theorem spells_of_expression (h : t.Of bodies expression) (ht : Quiet t) : Spells t := by
  obtain ⟨u, hu, rfl, hvalue⟩ := h.exists_of_map rfl
  have hu' : Quiet u := by
    rw [← hu.node_eq] at ht
    exact ht.of_recast
  have hoperand {u : Tree} (hu : u.Of bodies (choice operands)) (hu' : Quiet u) : Spells u :=
    spells_of_choice hu hu' fun n hn v hv hv' => spells_of_operand hn hv hv'
  have hspells : Spells u := by
    refine spells_of_run hu hu' fun n hn v hv hv' => ?_
    simp only [List.mem_append, List.mem_cons, List.not_mem_nil, or_false] at hn
    rcases hn with hn | rfl | rfl | rfl
    · exact spells_of_operand hn hv hv'
    · exact spells_of_joined hv hv' (.inl plainSource_lead.1) fun u => hoperand
    · exact spells_of_joined hv hv' (.inr (by decide)) fun u => hoperand
    · exact spells_of_joined hv hv' (.inl plainSource_lead.2) fun u hu hu' =>
        spells_of_joined hu hu' (.inr (by decide)) fun u => hoperand
  have hstrings : strings (u.recast expression) = strings u := by
    obtain ⟨head, tail, rfl, -⟩ := exists_of_run hu
    exact (strings_of_captures rfl _).trans (strings_of_captures rfl _).symm
  change Spelled (strings (u.recast expression)) _
  rw [hstrings, hvalue, trimmed, Value.flatten, String.toList_ofList]
  exact hspells.trimEnd

/-! ## Statements -/

theorem plainSource_keyword :
    plainSource "(?:export\\s+)?(?:default\\s+)?(?:async\\s+)?function\\b" = true ∧
    plainSource "[A-Za-z_$][A-Za-z0-9_$]*" = true ∧ plainSource "(?:while|for)\\b" = true ∧
    plainSource "(?:export\\s+)?(?:let|const|var)\\b" = true ∧
    plainSource "\\s*\\*" = true := by
  decide +kernel

/-- A word that is rendered in a form of its own. -/
theorem unquoted_of_keyword {a : Attributes} {source : String} (hsource : plainSource source = true)
    (ha : a.reshape = none) (h : t.Of bodies (.terminal a (.regex source))) :
    strings t = [] ∧ Unquoted t.value.flatten.toList := by
  obtain ⟨hmark, hne⟩ := Bool.and_eq_true_iff.mp hsource
  have hunquoted := unquoted_of_regex hmark h
  obtain ⟨text, rfl⟩ | ⟨-, rfl⟩ := h.exists_text
  · refine ⟨?_, ?_⟩
    · show (if (source == stringSource) = true then [text] else []) = []
      rw [if_neg (by simpa using hne)]
    · rw [value, Node.attributes, Attributes.reshaped, ha, Value.flatten, String.toList_ofList]
      exact hunquoted
  · exact ⟨rfl, hunquoted⟩

theorem spells_of_initializer (h : t.Of bodies (capture "init" (nullable initializer)))
    (ht : Quiet t) : Spelled (strings t) (match t.value.field? "value" with
      | some v => " = " ++ v.flatten
      | none => "").toList := by
  obtain ⟨b, e, b', v, rfl, hv, hfield⟩ | rfl := exists_of_initializer h
  · have hspells : Spells v :=
      spells_of_capture hv (ht.of_within (.of_part (by simp))) fun u => spells_of_expression
    have hstrings : strings (.branch (capture "init" (nullable initializer)) [b, e, b', v]) =
        strings v ++ [] := rfl
    rw [hfield, hstrings, List.append_nil]
    exact hspells.before (by decide)
  · exact .nil

theorem spells_of_binding (h : t.Of bodies binding) (ht : Quiet t) : Spells t := by
  obtain ⟨k, b, n, m, a, i, s, rfl, hk, hn, hi, hvalue⟩ := exists_of_binding h
  obtain ⟨hnone, hkind⟩ := unquoted_of_keyword plainSource_keyword.2.2.2.1 rfl hk
  have hname : Spells n := by
    refine spells_of_capture hn (ht.of_within (.of_part (by simp))) fun u hu hu' =>
      spells_of_choice hu hu' fun n hn v hv _ => ?_
    simp only [List.mem_cons, List.not_mem_nil, or_false] at hn
    rcases hn with rfl | rfl
    · exact spells_of_regex hv (spelled_of_plain plainSource_keyword.2.1 hv)
    · exact spells_of_group hv
  have hinit := spells_of_initializer hi (ht.of_within (.of_part (by simp)))
  have hstrings : strings (.branch binding [k, b, n, m, a, i, s]) =
      strings k ++ (strings n ++ (strings i ++ [])) := rfl
  rw [Spells, hstrings, hnone, List.nil_append, List.append_nil, hvalue, Value.flatten]
  have hfront := (spelled_normalizeSpace hkind).after (by decide : Unquoted " ".toList)
  exact ((hfront.append_text hname).append_text hinit).after (by decide)

theorem spells_of_returned (h : t.Of bodies returned) (ht : Quiet t) : Spells t := by
  obtain ⟨r, a, s, rfl, ha, hvalue⟩ := exists_of_returned h
  have hstrings : strings (.branch returned [r, a, s]) = strings a ++ [] := rfl
  rw [Spells, hstrings, List.append_nil, hvalue]
  obtain ⟨b, v, rfl, hv, hfield⟩ | rfl := exists_of_argument ha
  · have hspells : Spells v := by
      refine spells_of_capture hv (ht.of_within ?_) fun u => spells_of_expression
      exact .inside (List.mem_cons_of_mem _ List.mem_cons_self) (.of_part (by simp))
    have hstrings : strings (.branch (capture "argument" (nullable argument)) [b, v]) =
        strings v ++ [] := rfl
    rw [hfield, hstrings, List.append_nil]
    exact (hspells.before (by decide)).after (by decide)
  · exact .of_unquoted (by decide)

theorem spells_of_standing (h : t.Of bodies standing) (ht : Quiet t) : Spells t := by
  obtain ⟨e, s, rfl, he, hvalue⟩ := exists_of_standing h
  have hspells : Spells e :=
    spells_of_capture he (ht.of_within (.of_part (by simp))) fun u => spells_of_expression
  have hstrings : strings (.branch standing [e, s]) = strings e ++ [] := rfl
  rw [Spells, hstrings, List.append_nil, hvalue]
  exact hspells.after (by decide)

theorem strings_of_erased (hn : n ∈ erased ++ [empty]) (h : t.Of bodies n) : strings t = [] := by
  simp only [erased, List.cons_append, List.nil_append, List.mem_cons, List.not_mem_nil,
    or_false] at hn
  rcases hn with rfl | rfl | rfl | rfl | rfl
  · obtain ⟨ts, rfl, -⟩ | ⟨hnull, -⟩ := h.exists_parts
    · rfl
    · cases hnull
  · obtain ⟨ts, rfl, -⟩ | ⟨hnull, -⟩ := h.exists_parts
    · rfl
    · cases hnull
  · obtain ⟨ts, rfl, -⟩ | ⟨hnull, -⟩ := h.exists_parts
    · rfl
    · cases hnull
  · obtain ⟨ts, rfl, -⟩ | ⟨hnull, -⟩ := h.exists_parts
    · rfl
    · cases hnull
  · obtain ⟨u, hu, rfl, -⟩ := h.exists_of_map rfl
    cases hu with
    | literal => rfl
    | skipped => rfl

theorem sizeOf_parts_le (t : Tree) : sizeOf (parts t) ≤ sizeOf t := by
  cases t with
  | branch n ts =>
    simp only [parts, Tree.branch.sizeOf_spec]
    omega
  | leaf n text =>
    simp only [parts, List.nil.sizeOf_spec, Tree.leaf.sizeOf_spec]
    omega
  | skipped n => simp [parts]

/-- Statements that are smaller than the parts of a match are spelled with their strings. -/
def Smaller (t : Tree) : Prop :=
  ∀ s name, sizeOf s < sizeOf (parts t) → s.Of bodies (capture name (reference "statement")) →
    Quiet s → Spells s

theorem spells_of_next (h : t.Of bodies next) (ht : Quiet t) (hs : Smaller t) : Spells t := by
  obtain ⟨b, s, rfl, hof, hvalue⟩ := exists_of_next h
  have hspells : Spells s := hs s _ (by simp [parts]; omega) hof (ht.of_within (.of_part (by simp)))
  have hstrings : strings (.branch next [b, s]) = strings s ++ [] := rfl
  rwa [Spells, hstrings, List.append_nil, hvalue]

/-- Statements in a row. Those without a text have no strings. -/
theorem spelled_lines {f : String → String} {us : List Tree}
    (hf : ∀ xs s, Spelled xs s.toList → Spelled xs (f s).toList) (h : ∀ u ∈ us, Spells u) :
    Spelled (us.flatMap strings) ("\n".intercalate ((lines us).map f)).toList := by
  have hlines : (lines us).map f = (us.filter fun u => !u.value.flatten.isEmpty).map
      fun u => f u.value.flatten := by
    rw [lines, List.filter_map, List.map_map]
    rfl
  have hstrings : us.flatMap strings =
      (us.filter fun u => !u.value.flatten.isEmpty).flatMap strings := by
    clear hlines
    induction us with
    | nil => rfl
    | cons u us ih =>
      obtain ⟨hu, hus⟩ := List.forall_mem_cons.mp h
      rw [List.flatMap_cons, ih hus, List.filter_cons]
      split
      · rw [List.flatMap_cons]
      · next hempty =>
        rw [Bool.not_eq_true', Bool.not_eq_false, String.isEmpty_iff] at hempty
        rw [Spells, hempty] at hu
        rw [hu.eq_nil, List.nil_append]
  rw [hlines, hstrings]
  exact Spelled.intercalate (by decide) fun u hu => hf _ _ (h u (List.mem_filter.mp hu).1)

theorem spells_of_block (h : t.Of bodies (reference "block")) (ht : Quiet t) (hs : Smaller t) :
    Spells t := by
  obtain ⟨o, us, b, c, rfl, hus, hvalue⟩ := exists_of_block h
  have hall : ∀ u ∈ us, Spells u := fun u hu => by
    have hsize := List.sizeOf_lt_of_mem hu
    have hparts := sizeOf_parts_le u
    refine spells_of_next (hus u hu) (ht.of_within ?_) fun s name hlt => hs s name ?_
    · exact .inside List.mem_cons_self (.inside (List.mem_cons_of_mem _ List.mem_cons_self)
        (.of_part hu))
    · simp [parts]
      omega
  have hstrings : strings (.branch (reference "block")
      [.branch block [o, .branch (capture "body" (repetition next)) us, b, c]]) =
      (stringsAll us ++ []) ++ [] := rfl
  rw [Spells, hstrings, List.append_nil, List.append_nil, stringsAll_eq_flatMap, hvalue]
  have hspelled := spelled_lines (f := indent) (fun xs s hspelled => ?_) hall
  · split
    · next hempty =>
      rw [List.isEmpty_iff.mp hempty] at hspelled
      rw [hspelled.eq_nil]
      exact .of_unquoted (by decide)
    · exact (hspelled.before (by decide)).after (by decide)
  · rw [indent, String.toList_ofList]
    exact (Spelled.of_unquoted (by decide : Unquoted [' ', ' '])).append hspelled.indent

theorem spells_of_function (h : t.Of bodies function) (ht : Quiet t) (hs : Smaller t) :
    Spells t := by
  obtain ⟨k, s, b, n, b', g, b'', o, b₃, p, b₄, c, a, b₅, body, rfl, hk, hstar, hn, hp, hbody,
    hvalue⟩ := exists_of_function h
  have hquiet {u : Tree} (hu : u ∈ [k, s, b, n, b', g, b'', o, b₃, p, b₄, c, a, b₅, body]) :
      Quiet u := ht.of_within (.of_part hu)
  have hstrings : strings (.branch function [k, s, b, n, b', g, b'', o, b₃, p, b₄, c, a, b₅, body]) =
      strings k ++ (strings s ++ (strings n ++ (strings p ++ (strings body ++ [])))) := rfl
  obtain ⟨hnone, hhead⟩ := unquoted_of_keyword plainSource_keyword.1 rfl hk
  obtain ⟨hnostar, -⟩ := unquoted_of_keyword plainSource_keyword.2.2.2.2 rfl hstar
  obtain ⟨hnoname, hname⟩ := unquoted_of_keyword plainSource_keyword.2.1 rfl hn
  have hparams : Spells p := spells_of_capture hp (hquiet (by simp)) fun u => spells_of_params
  have hblock : Spells body := by
    obtain ⟨u, hu, hu', hparts, hspells⟩ := exists_of_kept hbody (hquiet (by simp))
    refine hspells (spells_of_block hu hu' fun s name hlt => hs s name ?_)
    have hle := sizeOf_parts_le body
    rw [hparts] at hlt
    simp [parts]
    omega
  rw [Spells, hstrings, hnone, hnostar, hnoname, List.append_nil, hvalue, Value.flatten]
  have hfront : Spelled [] (Text.normalizeSpace k.value.flatten ++
      (if !s.value.isNull then "*" else "") ++
      (if n.value.flatten.isEmpty then n.value.flatten else " " ++ n.value.flatten)).toList := by
    refine ((spelled_normalizeSpace hhead).after ?_).after ?_
    · split
      · exact (by decide : Unquoted "*".toList)
      · exact (by decide : Unquoted "".toList)
    · split
      · exact hname
      · rw [String.toList_append]
        exact List.forall_mem_append.mpr ⟨(by decide : Unquoted " ".toList), hname⟩
  exact (((hfront.after (by decide)).append_text hparams).after (by decide)).append_text hblock

theorem spells_of_conditional (h : t.Of bodies conditional) (ht : Quiet t) (hs : Smaller t) :
    Spells t := by
  obtain ⟨i, b, c, b', s, o, rfl, hc, hthen, ho, hvalue⟩ := exists_of_conditional h
  have htest : Spells c := spells_of_capture hc (ht.of_within (.of_part (by simp))) fun u hu _ =>
    spells_of_enclosed (by decide) hu
  have hbranch : Spells s := hs s _ (by simp [parts]; omega) hthen (ht.of_within (.of_part (by simp)))
  have hstrings : strings (.branch conditional [i, b, c, b', s, o]) =
      strings c ++ (strings s ++ (strings o ++ [])) := rfl
  rw [Spells, hstrings, List.append_nil, hvalue, Value.flatten, ← List.append_assoc]
  refine (((htest.before (by decide)).after (by decide)).append_text hbranch).append_text ?_
  obtain ⟨b₃, e, b₄, s', rfl, hs', hfield⟩ | rfl := exists_of_otherwise ho
  · have hspells : Spells s' := by
      refine hs s' _ (by simp [parts]; omega) hs' (ht.of_within ?_)
      exact .inside (List.mem_of_mem_getLast? rfl) (.of_part (by simp))
    have hstrings : strings (.branch (capture "otherwise" (nullable otherwise)) [b₃, e, b₄, s']) =
        strings s' ++ [] := rfl
    rw [hfield, hstrings, List.append_nil]
    exact hspells.before (by decide)
  · exact .nil

theorem spells_of_loop (h : t.Of bodies loop) (ht : Quiet t) (hs : Smaller t) : Spells t := by
  obtain ⟨k, b, c, b', s, rfl, hk, hc, hbody, hvalue⟩ := exists_of_loop h
  obtain ⟨hnone, hkeyword⟩ := unquoted_of_keyword plainSource_keyword.2.2.1 rfl hk
  have hhead : Spells c := spells_of_capture hc (ht.of_within (.of_part (by simp))) fun u hu _ =>
    spells_of_enclosed (by decide) hu
  have hspells : Spells s := hs s _ (by simp [parts]; omega) hbody (ht.of_within (.of_part (by simp)))
  have hstrings : strings (.branch loop [k, b, c, b', s]) =
      strings k ++ (strings c ++ (strings s ++ [])) := rfl
  rw [Spells, hstrings, hnone, List.nil_append, List.append_nil, hvalue, Value.flatten]
  have hfront := ((Spelled.of_unquoted hkeyword).after (by decide : Unquoted " ".toList))
  exact ((hfront.append_text hhead).after (by decide)).append_text hspells

/-- Statements are spelled with the strings that are kept of them. -/
theorem spells_of_statement {t : Tree} {name : String}
    (h : t.Of bodies (capture name (reference "statement"))) (ht : Quiet t) : Spells t := by
  obtain ⟨u, hu, hu', hparts, hspells⟩ := exists_of_kept h ht
  obtain ⟨n, v, rfl, hn, hof, hvalue⟩ := exists_of_statement hu
  have hquiet : Quiet v :=
    hu'.of_within (.inside (List.mem_singleton_self _) (.of_part (List.mem_singleton_self v)))
  have hsmaller : Smaller v := fun s name hlt hs hs' => by
    have hv := sizeOf_parts_le v
    have ht := sizeOf_parts_le t
    have hsize : sizeOf s < sizeOf t := by
      rw [← hparts] at ht
      simp [parts] at ht
      omega
    exact spells_of_statement hs hs'
  have hstrings : strings (.branch (reference "statement") [.branch statement [v]]) =
      strings v ++ [] ++ [] := rfl
  refine hspells ?_
  rw [Spells, hstrings, List.append_nil, List.append_nil, hvalue]
  change Spells v
  simp only [List.mem_append, List.mem_cons, List.not_mem_nil, or_false] at hn
  rcases hn with (rfl | hn) | rfl | rfl | rfl | rfl | rfl | rfl | rfl | rfl
  · exact spells_of_free (by decide) hof hquiet
  · have hn := List.mem_append_left [empty] hn
    rw [Spells, strings_of_erased hn hof, value_of_erased hn hof]
    exact .nil
  · exact spells_of_function hof hquiet hsmaller
  · exact spells_of_conditional hof hquiet hsmaller
  · exact spells_of_loop hof hquiet hsmaller
  · exact spells_of_binding hof hquiet
  · exact spells_of_returned hof hquiet
  · exact spells_of_block hof hquiet hsmaller
  · have hn := List.mem_append_right erased (List.mem_singleton_self empty)
    rw [Spells, strings_of_erased hn hof, value_of_erased hn hof]
    exact .nil
  · exact spells_of_standing hof hquiet
termination_by sizeOf t
decreasing_by omega

theorem spells_of_program (h : t.Of bodies program) (ht : Quiet t) : Spells t := by
  obtain ⟨us, b, rfl, hus, hvalue⟩ := exists_of_program h
  have hall : ∀ u ∈ us, Spells u := fun u hu => by
    refine spells_of_next (hus u hu) (ht.of_within ?_) fun s name _ => spells_of_statement
    exact .inside List.mem_cons_self (.of_part hu)
  have hstrings : strings (.branch program [.branch (capture "body" (repetition next)) us, b]) =
      stringsAll us ++ [] := rfl
  rw [Spells, hstrings, List.append_nil, stringsAll_eq_flatMap, hvalue]
  have hspelled := spelled_lines (f := id) (fun _ _ h => h) hall
  rw [List.map_id] at hspelled
  split
  · next hempty =>
    rw [List.isEmpty_iff.mp hempty] at hspelled
    rw [hspelled.eq_nil]
    exact .nil
  · exact hspelled.after (by decide)

end Form

open Form in
/-- In every source that is accepted and has no quotation marks in comments or in regular expression
literals, the JavaScript is spelled with the strings that are kept of the source. In particular all of
these stand in it byte for byte, however many blocks there are around them. -/
theorem Transpiler.transform_strings {settings : Settings} {t : Transpiler}
    (ht : Transpiler.ofSettings settings = .ok t) {source : List Char} {code : String}
    (h : t.transform source = .success code) :
    ∃ k tree, Grows Form.bodies k source 0 program 0 tree ∧ tree.text = source ∧
      tree.value.flatten = code ∧ (Quiet tree →
        Spelled (strings tree) code.toList ∧ ∀ x ∈ strings tree, x <:+: code.toList) := by
  obtain ⟨k, tree, htree, htext, rfl⟩ := Transpiler.exists_grows ht h
  refine ⟨k, tree, htree, htext, rfl, fun hquiet => ?_⟩
  have hspells := spells_of_program htree.of hquiet
  exact ⟨hspells, fun x hx => hspells.infix_of_mem hx⟩

/-! ## A template literal in nested blocks, and one behind a quotation mark -/

/-- A template literal over two lines and a string, inside two blocks. -/
def nestedTemplate : List Char := "\x7b \x7b x = f(`a\nb`, 'c'); \x7d \x7d".toList

/-- A template literal behind a regular expression literal with a quotation mark in it. -/
def openMark : List Char := "\x7b x = /\"/ + `a\nb`; \x7d".toList

theorem transform_templates_compiled : Parsers.compiled.toOption.any (fun parsers =>
    parsers.plain.transform nestedTemplate =
        .success "\x7b\n  \x7b\n    x = f(`a\nb`, 'c');\n  \x7d\n\x7d\n" &&
      parsers.plain.transform openMark =
        .success "\x7b\n  x = /\"/ + `a\n  b`;\n\x7d\n") = true := by
  rw [Parsers.compiled_eq]
  decide +kernel

theorem exists_transform_templates : ∃ t, Transpiler.ofSettings {} = .ok t ∧
    t.transform nestedTemplate =
      .success "\x7b\n  \x7b\n    x = f(`a\nb`, 'c');\n  \x7d\n\x7d\n" ∧
    t.transform openMark = .success "\x7b\n  x = /\"/ + `a\n  b`;\n\x7d\n" := by
  obtain ⟨parsers, hparsers⟩ := Parsers.exists_compiled
  have hcheck := transform_templates_compiled
  rw [hparsers] at hcheck
  simp only [Except.toOption, Option.any_some, Bool.and_eq_true, decide_eq_true_eq] at hcheck
  exact ⟨_, Transpiler.ofSettings_eq hparsers {}, Parsers.transform_eq_of_plain hparsers hcheck.1,
    Parsers.transform_eq_of_plain hparsers hcheck.2⟩

open Form in
theorem Transpiler.transform_strings_nested : ∃ t k tree, Transpiler.ofSettings {} = .ok t ∧
    t.transform nestedTemplate =
      .success "\x7b\n  \x7b\n    x = f(`a\nb`, 'c');\n  \x7d\n\x7d\n" ∧
    Grows Form.bodies k nestedTemplate 0 program 0 tree ∧ tree.text = nestedTemplate ∧
    tree.value.flatten = "\x7b\n  \x7b\n    x = f(`a\nb`, 'c');\n  \x7d\n\x7d\n" ∧
    (Quiet tree →
      Spelled (strings tree) "\x7b\n  \x7b\n    x = f(`a\nb`, 'c');\n  \x7d\n\x7d\n".toList ∧
      ∀ x ∈ strings tree,
        x <:+: "\x7b\n  \x7b\n    x = f(`a\nb`, 'c');\n  \x7d\n\x7d\n".toList) := by
  obtain ⟨t, ht, hcode, -⟩ := exists_transform_templates
  obtain ⟨k, tree, htree⟩ := Transpiler.transform_strings ht hcode
  exact ⟨t, k, tree, ht, hcode, htree⟩

/-- The template literal behind the mark is indented like the block around it. -/
theorem Transpiler.transform_open_mark : ∃ t, Transpiler.ofSettings {} = .ok t ∧
    t.transform openMark = .success "\x7b\n  x = /\"/ + `a\n  b`;\n\x7d\n" := by
  obtain ⟨t, ht, -, hcode⟩ := exists_transform_templates
  exact ⟨t, ht, hcode⟩

end Typestrip.TypeScript
