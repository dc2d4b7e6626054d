import Typestrip.Proofs.Text.Blanks
import Typestrip.Proofs.TypeScript.Trees

/-!
# Expressions

Expressions are put together again from the parts they are taken apart into. Outside the heads of arrow
functions nothing is lost on the way: the value has the characters of the text, up to blanks, and
where no operator stands at a line break, it is the text without blanks at its end
(`Parsers.expression_verbatim`).
-/

namespace Typestrip.TypeScript

open Grammar Grammar.Tree

/-! ## Operators at line breaks -/

theorem nonBlank_reindentLines (lines : List (List Char)) :
    Text.nonBlank (reindentLines lines) = lines.flatMap Text.nonBlank := by
  have hblank : Text.nonBlank continuation = [] := by decide
  induction lines with
  | nil => rfl
  | cons line rest ih =>
    have hline : Text.nonBlank (if (Text.trim line).isEmpty then [] else
        continuation ++ Text.trim line) = Text.nonBlank line := by
      split
      · next h =>
        rw [← Text.nonBlank_trim line, List.isEmpty_iff.mp h]
      · rw [Text.nonBlank_append, hblank, Text.nonBlank_trim, List.nil_append]
    cases rest with
    | nil => simp [reindentLines, hblank]
    | cons next rest =>
      rw [reindentLines, Text.nonBlank_append, hline, ih, ← List.flatMap_cons]
      exact List.cons_ne_nil _ _

/-- Reindenting changes blanks only. -/
theorem nonBlank_reindent (v : Value) :
    Text.nonBlank (reindent v).flatten.toList = Text.nonBlank v.flatten.toList := by
  have hjoin := Text.split_join '\n' v.flatten.toList
  have hnewline : Text.nonBlank ['\n'] = [] := by decide
  rw [reindent]
  split
  · rfl
  · next first rest hsplit =>
    rw [Text.splitLines] at hsplit
    rw [hsplit] at hjoin
    rw [← hjoin]
    have hlines (lines : List (List Char)) :
        Text.nonBlank (lines.flatMap ('\n' :: ·)) = lines.flatMap Text.nonBlank := by
      induction lines with
      | nil => rfl
      | cons line lines ih =>
        rw [List.flatMap_cons, List.flatMap_cons, Text.nonBlank_append, ih,
          ← List.singleton_append, Text.nonBlank_append, hnewline, List.nil_append]
    simp [Value.flatten, nonBlank_reindentLines, hlines]

/-- Without a line break there is nothing to reindent. -/
theorem flatten_reindent {v : Value} (h : '\n' ∉ v.flatten.toList) :
    (reindent v).flatten = v.flatten := by
  rw [reindent]
  rw [Text.splitLines, Text.split_of_not_mem h]
  rfl

namespace Form

open Grammar.Form

variable {t u : Tree}

/-! ## What is copied -/

/-- No head of an arrow function took part in the match. -/
def NoArrow (t : Tree) : Prop := ∀ u : Tree, u.Within t → u.node ≠ arrowHead

/-- No operator of the match reaches into another line. -/
def NoBreak (t : Tree) : Prop :=
  ∀ n text, (Tree.leaf n text).Within t → n.attributes.capture = some "lead" → '\n' ∉ text

/-- The value has the characters of the text up to blanks, and all of them if no operator reaches
into another line. -/
def Copied (t : Tree) : Prop :=
  NoArrow t → Text.nonBlank t.value.flatten.toList = Text.nonBlank t.text ∧
    (NoBreak t → t.value.flatten.toList = t.text)

theorem NoArrow.of_within (h : NoArrow t) (hu : u.Within t) : NoArrow u :=
  fun v hv => h v (hu.trans hv)

theorem NoBreak.of_within (h : NoBreak t) (hu : u.Within t) : NoBreak u :=
  fun n text hleaf => h n text (hu.trans hleaf)

/-- What is kept as it is is copied. -/
theorem copied_of_value (h : t.value = .text (String.ofList t.text)) : Copied t := by
  have hflatten : t.value.flatten.toList = t.text := by rw [h, Value.flatten, String.toList_ofList]
  exact fun _ => ⟨by rw [hflatten], fun _ => hflatten⟩

theorem copied_of_regex {source : String} (h : t.Of bodies (regex source)) : Copied t := by
  obtain ⟨text, rfl, hvalue⟩ := value_of_regex h
  exact copied_of_value hvalue

theorem copied_of_group (h : t.Of bodies (reference "group")) : Copied t := by
  obtain ⟨rule, hrule, u, rfl, hu, hvalue⟩ := exists_of_group h
  obtain ⟨-, -, -, -, -, -, hu⟩ := exists_of_enclosed hrule hu
  exact copied_of_value (by rw [hvalue, hu, text_branch_singleton, text_branch_singleton])

/-- What is copied for the only part is copied. -/
theorem Copied.of_part {n : Node} {u : Tree} (h : Copied u)
    (hvalue : value (.branch n [u]) = u.value) : Copied (.branch n [u]) := by
  intro harrow
  have hu : u.Within (.branch n [u]) := .of_part (List.mem_singleton_self u)
  obtain ⟨hblank, hsame⟩ := h (harrow.of_within hu)
  rw [hvalue, text_branch_singleton]
  exact ⟨hblank, fun hbreak => hsame (hbreak.of_within hu)⟩

/-- What is matched for an operand is copied. -/
theorem copied_of_operand {n : Node} (hn : n ∈ operands) (h : t.Of bodies n) : Copied t := by
  simp only [operands, List.mem_cons, List.not_mem_nil, or_false] at hn
  rcases hn with rfl | rfl | rfl | rfl | rfl | rfl
  · exact copied_of_regex h
  · exact copied_of_regex h
  · exact fun harrow => absurd h.node_eq (harrow t .self)
  · exact copied_of_group h
  · exact copied_of_regex h
  · exact copied_of_regex h

/-- An operator is copied together with what it is applied to. -/
theorem copied_of_joined {source : String} {rest : Node} (h : t.Of bodies (joined (regex source) rest))
    (hrest : ∀ u : Tree, u.Of bodies (capture "rest" rest) → Copied u) : Copied t := by
  obtain ⟨l, r, rfl, hl, hr, hvalue⟩ := exists_of_joined h
  obtain ⟨text, rfl⟩ | ⟨hnull, -⟩ := hl.exists_text
  · intro harrow
    have hleaf : value (.leaf (capture "lead" (map reindent (regex source))) text) =
      reindent (.text (String.ofList text)) := rfl
    have hr := hrest r hr (harrow.of_within (.of_part (by simp)))
    have hflatten : (Value.text (String.ofList text)).flatten.toList = text := String.toList_ofList
    rw [hvalue]
    simp only [Value.flatten, String.toList_append, Tree.text, textAll_cons, textAll_nil,
      List.append_nil, Text.nonBlank_append]
    refine ⟨?_, fun hbreak => ?_⟩
    · rw [hr.1]
      exact congrArg (· ++ _) ((nonBlank_reindent _).trans (congrArg _ hflatten))
    · have hline := hbreak _ text (.of_part List.mem_cons_self) rfl
      rw [hr.2 (hbreak.of_within (.of_part (by simp)))]
      refine congrArg (· ++ _) ((congrArg String.toList (flatten_reindent ?_)).trans hflatten)
      rwa [hflatten]
  · cases hnull

/-- What is matched for several pieces in a row is copied. -/
theorem copied_of_run {pieces : List Node} (h : t.Of bodies (run pieces))
    (hpieces : ∀ n ∈ pieces, ∀ u : Tree, u.Of bodies n → Copied u) : Copied t := by
  obtain ⟨head, tail, rfl, hall, hvalue⟩ := exists_of_run h
  have hcopied : ∀ u ∈ head :: tail, Copied u := fun u hu => by
    obtain ⟨n, hn, hu⟩ := hall u hu
    exact hpieces n hn u hu
  intro harrow
  rw [hvalue, text_runTree, ← List.flatMap_cons]
  refine ⟨?_, fun hbreak => List.flatMap_congr fun u hu => ?_⟩
  · rw [Text.nonBlank, Text.nonBlank, List.filter_flatMap, List.filter_flatMap]
    exact List.flatMap_congr fun u hu => (hcopied u hu (harrow.of_within (within_runTree hu))).1
  · have hu' : u.Within (runTree pieces head tail) := within_runTree hu
    exact (hcopied u hu (harrow.of_within hu')).2 (hbreak.of_within hu')

/-- What an expression consists of. -/
def pieces : List Node := operands ++ [division, operation, nextLine]

theorem NoArrow.of_recast {n : Node} (h : NoArrow (t.recast n)) (ht : t.node ≠ arrowHead) :
    NoArrow t := by
  intro u hu
  obtain rfl | hu := hu.recast n
  · exact ht
  · exact h u hu

theorem NoBreak.of_recast {n : Node} (h : NoBreak (t.recast n))
    (ht : ∀ m text, t ≠ .leaf m text) : NoBreak t := by
  intro m text hleaf
  obtain hleaf | hleaf := hleaf.recast n
  · exact absurd hleaf.symm (ht m text)
  · exact h m text hleaf

theorem Copied.recast {n : Node} (h : Copied t) (hnode : t.node ≠ arrowHead)
    (hleaf : ∀ m text, t ≠ .leaf m text) (hvalue : (t.recast n).value = t.value) :
    Copied (t.recast n) := by
  intro harrow
  obtain ⟨hblank, hsame⟩ := h (harrow.of_recast hnode)
  rw [hvalue, text_recast]
  exact ⟨hblank, fun hbreak => hsame (hbreak.of_recast hleaf)⟩

/-- Constructs are told apart by the number of their parts. -/
theorem ne_arrowHead {n : Node} (h : n.children.length ≠ 8) : n ≠ arrowHead := by
  rintro rfl
  exact h rfl

theorem copied_of_piece {n : Node} (hn : n ∈ pieces) (h : t.Of bodies n) : Copied t := by
  have hoperand {u : Tree} (hu : u.Of bodies (capture "rest" (choice operands))) : Copied u := by
    obtain ⟨n, hn, v, rfl, hv⟩ := hu.exists_alternative rfl
    exact (copied_of_operand hn hv).of_part rfl
  simp only [pieces, List.mem_append, List.mem_cons, List.not_mem_nil, or_false] at hn
  rcases hn with hn | rfl | rfl | rfl
  · exact copied_of_operand hn h
  · exact copied_of_joined h fun u hu => hoperand hu
  · exact copied_of_joined h fun u hu => hoperand hu
  · -- what comes in the next line is an operation itself
    refine copied_of_joined h fun u hu => ?_
    obtain ⟨v, hv, rfl, hvalue⟩ := hu.exists_of_capture
    have hcopied : Copied v := copied_of_joined hv fun w hw => hoperand hw
    refine hcopied.recast (hv.node_eq ▸ ne_arrowHead (by decide)) ?_ hvalue
    obtain ⟨l, r, rfl, -⟩ := exists_of_joined hv
    nofun

/-- Expressions are copied but for the blanks at their end. -/
theorem copied_expression {name : String} (h : t.Of bodies (capture name expression))
    (harrow : NoArrow t) :
    Text.nonBlank t.value.flatten.toList = Text.nonBlank t.text ∧
      (NoBreak t → t.value = .text (String.ofList (Text.trimEnd t.text))) := by
  obtain ⟨u, hu, rfl, hvalue⟩ := h.exists_of_capture
  obtain ⟨v, hv, rfl, htrimmed⟩ := hu.exists_of_map rfl
  rw [recast_recast] at harrow hvalue ⊢
  have hcopied : Copied v := copied_of_run hv fun n hn u hu => copied_of_piece hn hu
  have hnode : v.node ≠ arrowHead := hv.node_eq ▸ ne_arrowHead (by decide : 2 ≠ 8)
  have hleaf : ∀ m text, v ≠ .leaf m text := by
    obtain ⟨head, tail, rfl, -⟩ := exists_of_run hv
    nofun
  obtain ⟨hblank, hsame⟩ := hcopied (harrow.of_recast hnode)
  rw [hvalue, htrimmed, trimmed, text_recast]
  refine ⟨?_, fun hbreak => ?_⟩
  · rw [Value.flatten, String.toList_ofList, Text.nonBlank_trimEnd, hblank]
  · rw [hsame (hbreak.of_recast hleaf)]

end Form

open Grammar.Form in
/-- Wherever in a parse an expression is found, the tree of the match tells how much of the text its
value is: if no head of an arrow function took part, all but blanks, and if no operator reaches into
another line either, all but the blanks at the end. -/
theorem Parsers.expression_verbatim {parsers : Parsers} (hparsers : Parsers.compiled = .ok parsers)
    {p : Parser} (hp : p ∈ [parsers.program, parsers.statement]) {options : Options}
    {source : List Char} {x : Frame} (hx : p.Reaches options source x) {n : Node} {name : String}
    (hn : n.form = capture name Form.expression) {m : Matcher}
    (hm : n.compile (grammar.run {}).2.registry = .ok m) (htask : x.task = .ask m) {s : Success}
    {memo : Memo}
    (h : memoized m.attributes.id (m.evaluate p.rules (enter p.rules options.maxDepth x.left))
      x.pos x.rest x.memo = (.ok s, memo)) :
    ∃ k t after, Grows Form.bodies k source 0 (capture name Form.expression) x.pos t ∧
      x.rest = t.text ++ after ∧ s.consumed = Text.width t.text ∧ (Form.NoArrow t →
        Text.nonBlank s.value.flatten.toList = Text.nonBlank t.text ∧
        (Form.NoBreak t → s.value = .text (String.ofList (Text.trimEnd t.text)))) := by
  obtain ⟨hpos, k, t, ht, rfl⟩ := Parsers.exists_grows_of_ask hparsers hp hx hm htask h
  rw [hn] at ht
  obtain ⟨after, hafter⟩ := ht.exists_after hpos
  exact ⟨k, t, after, ht, hafter, rfl, Form.copied_expression ht.of⟩

/-! ## An expression of one word -/

/-- The expression that stands as a statement: it is the last kind of a statement. -/
def Parsers.standing? (parsers : Parsers) : Option Matcher :=
  (parsers.alternative? 12).bind (·.children[0]?)

theorem Parsers.exists_standing {parsers : Parsers} (hparsers : Parsers.compiled = .ok parsers) :
    ∃ (n : Node) (m : Matcher), n.form = Grammar.Form.capture "expression" Form.expression ∧
      n.compile (grammar.run {}).2.registry = .ok m ∧ parsers.standing? = some m := by
  obtain ⟨n, m, hn, hm, halternative⟩ := Parsers.exists_alternative hparsers
    (rfl : Form.statement.children[12]? = some Form.standing)
  obtain ⟨n', m', hn', hm', hchild⟩ := Node.exists_child hm (by rw [hn]; rfl :
    n.form.children[0]? = some (Grammar.Form.capture "expression" Form.expression))
  exact ⟨n', m', hn', hm', by rw [standing?, halternative, Option.bind_some, hchild]⟩

/-- The calls that lead from the beginning of a program to the expression that stands there: through
the statements of the program, past the other kinds of a statement. -/
def toStanding : List Nat :=
  [0, 0, 0, 0, 0, 0, 0, 0, 1, 0, 0, 0, 0, 0, 0] ++ List.replicate 12 1 ++ [0, 0, 0, 0]

/-- Where a moment asks for the expression that stands as a statement, what is found. The expression
is known by its identity. -/
def Parsers.standingAt? (parsers : Parsers) (x : Frame) : Option String :=
  match x.task with
  | .ask m =>
    if parsers.standing?.any (·.attributes.id = m.attributes.id) then
      match (memoized m.attributes.id (m.evaluate parsers.program.rules
          (enter parsers.program.rules 256 x.left)) x.pos x.rest x.memo).1 with
      | .ok s => some s.value.flatten
      | .error _ => none
    else none
  | _ => none

theorem standingAt_compiled : Parsers.compiled.toOption.any (fun parsers =>
    (((parsers.program.start {} ['a', ' ', '+', '\n', 'b', ' ', ';']).follow parsers.program.rules 256
      toStanding).bind parsers.standingAt?) = some "a +\n  b") = true := by
  rw [Parsers.compiled_eq]
  decide +kernel

/-- A sum over two lines. -/
theorem Parsers.expression_verbatim_sum : ∃ (parsers : Parsers) (x : Frame) (m : Matcher)
    (s : Success) (k : Nat) (t : Tree) (after : List Char), Parsers.compiled = .ok parsers ∧
    parsers.program.Reaches {} ['a', ' ', '+', '\n', 'b', ' ', ';'] x ∧ x.task = .ask m ∧
    s.value.flatten = "a +\n  b" ∧
    Grows Form.bodies k ['a', ' ', '+', '\n', 'b', ' ', ';'] 0
      (Grammar.Form.capture "expression" Form.expression) x.pos t ∧
    x.rest = t.text ++ after ∧ s.consumed = Text.width t.text ∧ (Form.NoArrow t →
      Text.nonBlank s.value.flatten.toList = Text.nonBlank t.text ∧
      (Form.NoBreak t → s.value = .text (String.ofList (Text.trimEnd t.text)))) := by
  obtain ⟨parsers, hparsers⟩ := Parsers.exists_compiled
  have hcheck := standingAt_compiled
  rw [hparsers] at hcheck
  obtain ⟨x, hx, hat⟩ := Option.bind_eq_some_iff.mp (of_decide_eq_true hcheck)
  have hreaches : parsers.program.Reaches {} _ x := Frame.reaches_of_follow hx
  unfold Parsers.standingAt? at hat
  split at hat
  · next m htask =>
    split at hat
    · next hid =>
      split at hat
      · next s hs =>
        obtain ⟨n, m', hn, hm', hstanding⟩ := Parsers.exists_standing hparsers
        obtain ⟨member, F, hidentified, hroot, -⟩ := Parsers.exists_family hparsers
        have hmember : member m := (hreaches.placed F hidentified hroot).asked htask
        have hmember' : member m' := by
          obtain ⟨c, hc, hm'⟩ := Option.bind_eq_some_iff.mp hstanding
          exact F.children (Parsers.member_alternative F hc) (List.mem_of_getElem? hm')
        -- what is asked for has the identity of the expression, so it is the expression
        obtain rfl : m' = m := by
          rw [hstanding, Option.any_some, decide_eq_true_eq] at hid
          exact hidentified hmember' hmember hid
        obtain ⟨k, t, after, ht⟩ := Parsers.expression_verbatim hparsers List.mem_cons_self hreaches hn
          hm' htask (Prod.ext hs rfl)
        exact ⟨parsers, x, m', s, k, t, after, hparsers, hreaches, htask, Option.some.inj hat, ht⟩
      · cases hat
    · cases hat
  · cases hat

end Typestrip.TypeScript
