import Typestrip.Proofs.TypeScript.Trees

/-!
# Bodies of control statements

What conditionals and loops govern is emitted behind their heads. It has to be a statement that ends
there, or else the statement that follows is taken for it. An empty statement and a declaration that
is erased are emitted as nothing (`Transpiler.transform_empty_body`); apart from these and from bare
comments, everything that a conditional or a loop governs is emitted as text that ends in a semicolon
or in a closing brace (`Transpiler.transform_bodies`).
-/

namespace Typestrip.TypeScript

open Grammar Grammar.Tree

namespace Form

open Grammar.Form

variable {t u s : Tree} {n : Node} {name : String}

/-- The statements that a conditional or a loop governs. -/
inductive Governs : Tree → Tree → Prop
  | thenBranch {i b c b' s o} : Governs (.branch conditional [i, b, c, b', s, o]) s
  | elseBranch {i b c b' s n b₃ e b₄ s'} :
      Governs (.branch conditional [i, b, c, b', s, .branch n [b₃, e, b₄, s']]) s'
  | body {k b c b' s} : Governs (.branch loop [k, b, c, b', s]) s

/-- The alternative that a statement was matched by. -/
def Kind (n : Node) (s : Tree) : Prop := ∃ m u, s = .branch m [.branch statement [u]] ∧ u.node = n

/-- The text ends in a semicolon or a closing brace. -/
def Ended (text : String) : Prop := ∃ front c, text.toList = front ++ [c] ∧ c ∈ [';', '\x7d']

theorem ended_append (front : String) {text : String} (h : Ended text) : Ended (front ++ text) := by
  obtain ⟨cs, c, htext, hc⟩ := h
  exact ⟨front.toList ++ cs, c, by rw [String.toList_append, htext, List.append_assoc], hc⟩

theorem ended_of_mark {mark : String} (h : mark = ";" ∨ mark = "\x7d") (front : String) :
    Ended (front ++ mark) := by
  refine ended_append front ?_
  rcases h with rfl | rfl
  · exact ⟨[], ';', rfl, by decide⟩
  · exact ⟨[], '\x7d', rfl, by decide⟩

theorem Ended.ne_empty {text : String} (h : Ended text) : text ≠ "" := by
  rintro rfl
  obtain ⟨front, c, htext, -⟩ := h
  exact absurd htext.symm (List.append_ne_nil_of_right_ne_nil _ (List.cons_ne_nil c []))

/-! ## Statements -/

theorem exists_of_kept_statement (h : t.Of bodies (capture name (reference "statement"))) :
    ∃ n u, t = .branch (capture name (reference "statement")) [.branch statement [u]] ∧
      n ∈ [comment] ++ erased ++
        [function, conditional, loop, binding, returned, reference "block", empty, standing] ∧
      u.Of bodies n ∧ Kind n t ∧ t.value = u.value := by
  obtain ⟨v, hv, rfl, hvalue⟩ := h.exists_of_capture
  obtain ⟨n, u, rfl, hn, hu, hvalue'⟩ := exists_of_statement hv
  exact ⟨n, u, rfl, hn, hu, ⟨_, u, rfl, hu.node_eq⟩, hvalue.trans hvalue'⟩

theorem ended_of_block (h : t.Of bodies (reference "block")) : Ended t.value.flatten := by
  obtain ⟨o, us, b, c, rfl, -, hvalue⟩ := exists_of_block h
  rw [hvalue]
  split
  · exact ended_of_mark (.inr rfl) "\x7b"
  · exact ended_append _ (ended_of_mark (.inr rfl) "\n")

theorem ended_of_function (h : t.Of bodies function) : Ended t.value.flatten := by
  obtain ⟨k, s, b, n, b', g, b'', o, b₃, p, b₄, c, a, b₅, body, rfl, -, -, -, -, hbody, hvalue⟩ :=
    exists_of_function h
  obtain ⟨u, hu, rfl, hvalue'⟩ := hbody.exists_of_capture
  rw [hvalue, hvalue']
  exact ended_append _ (ended_of_block hu)

theorem ended_of_returned (h : t.Of bodies returned) : Ended t.value.flatten := by
  obtain ⟨r, a, s, rfl, -, hvalue⟩ := exists_of_returned h
  rw [hvalue]
  split
  · exact ended_of_mark (.inl rfl) _
  · exact ended_of_mark (.inl rfl) "return"

theorem ended_of_binding (h : t.Of bodies binding) : Ended t.value.flatten := by
  obtain ⟨k, b, n, m, a, i, s, rfl, -, -, -, hvalue⟩ := exists_of_binding h
  rw [hvalue]
  exact ended_of_mark (.inl rfl) _

theorem ended_of_standing (h : t.Of bodies standing) : Ended t.value.flatten := by
  obtain ⟨e, s, rfl, -, hvalue⟩ := exists_of_standing h
  rw [hvalue]
  exact ended_of_mark (.inl rfl) _

/-- The kinds of statements that are emitted as nothing. -/
def vanishing : List Node := erased ++ [empty]

/-- No conditional or loop of the match governs a statement that is emitted as nothing or as a
comment. -/
def Governed (t : Tree) : Prop :=
  ∀ u s, u.Within t → Governs u s → ∀ n ∈ comment :: vanishing, ¬ Kind n s

theorem Governed.of_within (h : Governed t) (hu : u.Within t) : Governed u :=
  fun v s hv => h v s (hu.trans hv)

/-- A conditional ends where its last branch does. -/
theorem ended_of_conditional (h : t.Of bodies conditional)
    (hs : ∀ s name, Governs t s → s.Of bodies (capture name (reference "statement")) →
      Ended s.value.flatten) : Ended t.value.flatten := by
  obtain ⟨i, b, c, b', s, o, rfl, -, hthen, helse, hvalue⟩ := exists_of_conditional h
  rw [hvalue]
  obtain ⟨b₃, e, b₄, s', rfl, hs', hfield⟩ | rfl := exists_of_otherwise helse
  · rw [hfield]
    exact ended_append _ (ended_append _ (hs s' _ .elseBranch hs'))
  · have hended := hs s _ .thenBranch hthen
    simpa [Tree.value, Value.field?, Value.flatten] using ended_append ("if " ++ c.value.flatten ++ " ") hended

theorem ended_of_loop (h : t.Of bodies loop)
    (hs : ∀ s name, Governs t s → s.Of bodies (capture name (reference "statement")) →
      Ended s.value.flatten) : Ended t.value.flatten := by
  obtain ⟨k, b, c, b', s, rfl, -, -, hbody, hvalue⟩ := exists_of_loop h
  rw [hvalue]
  exact ended_append _ (hs s _ .body hbody)

theorem Governs.within (h : Governs u s) : s.Within u := by
  cases h with
  | thenBranch | body => exact .of_part (by simp)
  | elseBranch => exact .inside (List.mem_of_mem_getLast? rfl) (.of_part (by simp))

theorem Governs.exists_of (h : Governs u s) (hu : u.Of bodies u.node) :
    ∃ name, s.Of bodies (capture name (reference "statement")) := by
  cases h with
  | thenBranch =>
    obtain ⟨_, _, _, _, _, _, heq, -, hs, -⟩ := exists_of_conditional hu
    simp only [Tree.branch.injEq, true_and, List.cons.injEq] at heq
    exact ⟨_, heq.2.2.2.2.1 ▸ hs⟩
  | elseBranch =>
    obtain ⟨_, _, _, _, _, _, heq, -, -, ho, -⟩ := exists_of_conditional hu
    simp only [Tree.branch.injEq, true_and, List.cons.injEq] at heq
    obtain ⟨_, _, _, _, heq', hs, -⟩ | hskipped := exists_of_otherwise ho
    · have hparts := heq.2.2.2.2.2.1.trans heq'
      simp only [Tree.branch.injEq, List.cons.injEq] at hparts
      exact ⟨_, hparts.2.2.2.2.1 ▸ hs⟩
    · rw [← heq.2.2.2.2.2.1] at hskipped
      cases hskipped
  | body =>
    obtain ⟨_, _, _, _, _, heq, -, -, hs, -⟩ := exists_of_loop hu
    simp only [Tree.branch.injEq, true_and, List.cons.injEq] at heq
    exact ⟨_, heq.2.2.2.2.1 ▸ hs⟩

theorem Governs.sizeOf_lt (h : Governs u s) : sizeOf s < sizeOf u := by
  cases h <;> simp <;> omega

/-- What is governed ends, unless it is emitted as nothing or as a comment. -/
theorem ended_of_statement {t : Tree} {name : String}
    (h : t.Of bodies (capture name (reference "statement"))) (hgoverned : Governed t)
    (hkind : ∀ n ∈ comment :: vanishing, ¬ Kind n t) : Ended t.value.flatten := by
  obtain ⟨n, u, ht, hn, hu, hkind', hvalue⟩ := exists_of_kept_statement h
  have hsize : sizeOf u < sizeOf t := by
    rw [ht]
    simp
    omega
  have hwithin : u.Within t := by
    rw [ht]
    exact .inside (List.mem_singleton_self _) (.of_part (List.mem_singleton_self u))
  have hbranch (s : Tree) (name : String) (hs : Governs u s)
      (h : s.Of bodies (capture name (reference "statement"))) : Ended s.value.flatten := by
    have hlt := hs.sizeOf_lt
    exact ended_of_statement h (hgoverned.of_within (hwithin.trans hs.within))
      (hgoverned u s hwithin hs)
  rw [hvalue]
  simp only [List.mem_append, List.mem_cons, List.not_mem_nil, or_false] at hn
  rcases hn with (rfl | hn) | rfl | rfl | rfl | rfl | rfl | rfl | rfl | rfl
  · exact absurd hkind' (hkind _ List.mem_cons_self)
  · exact absurd hkind' (hkind _ (List.mem_cons_of_mem _ (List.mem_append_left _ hn)))
  · exact ended_of_function hu
  · exact ended_of_conditional hu hbranch
  · exact ended_of_loop hu hbranch
  · exact ended_of_binding hu
  · exact ended_of_returned hu
  · exact ended_of_block hu
  · exact absurd hkind' (hkind _ (List.mem_cons_of_mem _ (List.mem_append_right _
      (List.mem_singleton_self _))))
  · exact ended_of_standing hu
termination_by sizeOf t
decreasing_by omega

theorem ended_of_governs (h : Governs u s) (hu : u.Of bodies u.node) (hgoverned : Governed u) :
    Ended s.value.flatten ∧ Ended u.value.flatten := by
  have hall (s : Tree) (name : String) (hs : Governs u s)
      (hof : s.Of bodies (capture name (reference "statement"))) : Ended s.value.flatten :=
    ended_of_statement hof (hgoverned.of_within hs.within) (hgoverned u s .self hs)
  obtain ⟨name, hs⟩ := h.exists_of hu
  refine ⟨hall s name h hs, ?_⟩
  cases h with
  | thenBranch | elseBranch => exact ended_of_conditional hu hall
  | body => exact ended_of_loop hu hall

/-! ## Nothing -/

theorem takes_comment : (Regex.Expr.ofSource? (anchoredSource
    "//[^\\n]*|/\\*[\\s\\S]*?\\*/")).all (·.takes) = true := by
  decide +kernel

theorem ne_empty_of_comment (h : t.Of bodies comment) : t.value.flatten ≠ "" := by
  cases h with
  | skipped hnull => cases hnull
  | @regex a source regex cs k hregex hk =>
    have htakes := takes_comment
    rw [hregex, Option.all_some] at htakes
    have hpos := Regex.Expr.search?_pos htakes hk
    have hle := Regex.Expr.search?_le hk
    intro hempty
    have hlength : (cs.take k).length = 0 := by
      rw [← String.toList_ofList (l := cs.take k)]
      exact congrArg (List.length ∘ String.toList) hempty
    rw [List.length_take] at hlength
    omega

/-- Empty statements and declarations that are erased are emitted as nothing, and they only. -/
theorem flatten_eq_empty_iff (h : t.Of bodies (capture name (reference "statement"))) :
    t.value.flatten = "" ↔ ∃ n ∈ vanishing, Kind n t := by
  obtain ⟨n, u, rfl, hn, hu, hkind, hvalue⟩ := exists_of_kept_statement h
  rw [hvalue]
  refine ⟨fun hempty => ⟨n, ?_, hkind⟩, fun ⟨n', hn', m, v, hv, hnode⟩ => ?_⟩
  · simp only [List.mem_append, List.mem_cons, List.not_mem_nil, or_false] at hn
    rcases hn with (rfl | hn) | rfl | rfl | rfl | rfl | rfl | rfl | rfl | rfl
    · exact absurd hempty (ne_empty_of_comment hu)
    · exact List.mem_append_left _ hn
    · exact absurd hempty (ended_of_function hu).ne_empty
    · obtain ⟨i, b, c, b', s, o, rfl, -, -, -, hvalue⟩ := exists_of_conditional hu
      rw [hvalue] at hempty
      simp [Value.flatten] at hempty
    · obtain ⟨k, b, c, b', s, rfl, -, -, -, hvalue⟩ := exists_of_loop hu
      rw [hvalue] at hempty
      simp [Value.flatten] at hempty
    · exact absurd hempty (ended_of_binding hu).ne_empty
    · exact absurd hempty (ended_of_returned hu).ne_empty
    · exact absurd hempty (ended_of_block hu).ne_empty
    · exact List.mem_append_right _ (List.mem_singleton_self _)
    · exact absurd hempty (ended_of_standing hu).ne_empty
  · obtain rfl := (List.cons.inj (Tree.branch.inj (List.cons.inj (Tree.branch.inj hv).2).1).2).1
    rw [value_of_erased hn' (hnode ▸ hu.node_eq ▸ hu)]
    rfl

end Form

open Form in
/-- In every source that is accepted, a conditional or a loop governs nothing in the JavaScript exactly
where it governs an empty statement or a declaration that is erased. If it nowhere governs one of
these or a bare comment, then all that is governed ends in a semicolon or a closing brace, and with it
the conditional or the loop. -/
theorem Transpiler.transform_bodies {settings : Settings} {t : Transpiler}
    (ht : Transpiler.ofSettings settings = .ok t) {source : List Char} {code : String}
    (h : t.transform source = .success code) :
    ∃ k tree, Grows Form.bodies k source 0 program 0 tree ∧ tree.text = source ∧
      tree.value.flatten = code ∧
      (∀ u s, u.Within tree → Governs u s →
        (s.value.flatten = "" ↔ ∃ n ∈ vanishing, Kind n s)) ∧
      (Governed tree → ∀ u s, u.Within tree → Governs u s →
        Ended s.value.flatten ∧ Ended u.value.flatten) := by
  obtain ⟨k, tree, htree, htext, hcode⟩ := Transpiler.exists_grows ht h
  refine ⟨k, tree, htree, htext, hcode, fun u s hu hs => ?_, fun hgoverned u s hu hs => ?_⟩
  · obtain ⟨name, hof⟩ := hs.exists_of (htree.of.of_within hu)
    exact flatten_eq_empty_iff hof
  · exact ended_of_governs hs (htree.of.of_within hu) (hgoverned.of_within hu)

/-! ## Branches, and a loop without a body -/

/-- A conditional with a loop in its second branch. -/
def branches : List Char := "if (a) b(); else while (c) \x7b d(); \x7d".toList

/-- A loop with an empty body, and a statement after it. -/
def bodiless : List Char := "for (;;);\na();".toList

theorem transform_branches_compiled : Parsers.compiled.toOption.any (fun parsers =>
    parsers.plain.transform branches =
        .success "if (a) b(); else while (c) \x7b\n  d();\n\x7d\n" &&
      parsers.plain.transform bodiless = .success "for (;;) \na();\n") = true := by
  rw [Parsers.compiled_eq]
  decide +kernel

theorem exists_transform_branches : ∃ t, Transpiler.ofSettings {} = .ok t ∧
    t.transform branches = .success "if (a) b(); else while (c) \x7b\n  d();\n\x7d\n" ∧
    t.transform bodiless = .success "for (;;) \na();\n" := by
  obtain ⟨parsers, hparsers⟩ := Parsers.exists_compiled
  have hcheck := transform_branches_compiled
  rw [hparsers] at hcheck
  simp only [Except.toOption, Option.any_some, Bool.and_eq_true, decide_eq_true_eq] at hcheck
  exact ⟨_, Transpiler.ofSettings_eq hparsers {}, Parsers.transform_eq_of_plain hparsers hcheck.1,
    Parsers.transform_eq_of_plain hparsers hcheck.2⟩

open Form in
theorem Transpiler.transform_bodies_branches : ∃ t k tree, Transpiler.ofSettings {} = .ok t ∧
    t.transform branches = .success "if (a) b(); else while (c) \x7b\n  d();\n\x7d\n" ∧
    Grows Form.bodies k branches 0 program 0 tree ∧ tree.text = branches ∧
    tree.value.flatten = "if (a) b(); else while (c) \x7b\n  d();\n\x7d\n" ∧
    (∀ u s, u.Within tree → Governs u s → (s.value.flatten = "" ↔ ∃ n ∈ vanishing, Kind n s)) ∧
    (Governed tree → ∀ u s, u.Within tree → Governs u s →
      Ended s.value.flatten ∧ Ended u.value.flatten) := by
  obtain ⟨t, ht, hcode, -⟩ := exists_transform_branches
  obtain ⟨k, tree, htree⟩ := Transpiler.transform_bodies ht hcode
  exact ⟨t, k, tree, ht, hcode, htree⟩

/-- The statement behind a loop without a body becomes its body. -/
theorem Transpiler.transform_empty_body : ∃ t, Transpiler.ofSettings {} = .ok t ∧
    t.transform bodiless = .success "for (;;) \na();\n" := by
  obtain ⟨t, ht, -, hcode⟩ := exists_transform_branches
  exact ⟨t, ht, hcode⟩

end Typestrip.TypeScript
