import Typestrip.Proofs.TypeScript.LineEnds

/-!
# Remarks at the end of a line

A comment at the end of a line is kept as a line of its own (`Transpiler.transform_remark`), if nothing
in the line reaches into it (`Apart`): the program with the comment has the statements of the line and
one more, the comment.

Otherwise the comment may be taken. Behind an expression that could go on, with no semicolon, two
slashes of the comment make a regular expression literal, and so do a slash in the line and one of the
comment (`Transpiler.transform_remark_taken`).
-/

namespace Typestrip.TypeScript

open Grammar Regex

variable {t c b y r r' : List Char}

/-! ## The statements of a program -/

/-- The statements that stand behind a line. -/
def remarks (c y : List Char) : List Value :=
  if y = [] then [] else [.text (String.ofList ('/' :: '/' :: c))]

/-- The value of a program with these statements. -/
def programValue (statements : List Value) : Value :=
  renderProgram (.object (Fields.insert "body" (.list statements) []))

theorem read_blanks (rules : Rules) (n : Nat) {m : Matcher}
    (hm : m.OfForm (grammar.run {}).2.registry Form.blanks) (cs : List Char) :
    ∃ v, m.read rules n cs = .matched v (cs.dropWhile Unicode.isSpace) := by
  obtain ⟨a, expected, rfl, ha⟩ := hm.exists_pattern Form.outline_blanks
  have hreshape : a.reshape = none := congrArg Attributes.reshape ha
  have hnull : a.nullable = false := congrArg Attributes.nullable ha
  obtain ⟨x, hx⟩ := exists_readPattern (Expr.rest?_run .space cs)
  rw [Matcher.read_pattern hreshape hnull, hx]
  exact ⟨_, rfl⟩

section

variable {parsers : Parsers} {n : Nat} {m body : Matcher}

/-- Blanks and a statement are read as the statement is. -/
theorem read_next (hm : m.OfForm (grammar.run {}).2.registry Form.next)
    (hbody : (parsers.program.rules[9]?).join = some body) (cs : List Char) :
    m.read parsers.program.rules n cs =
      entered parsers.program.rules n body (cs.dropWhile Unicode.isSpace) := by
  obtain ⟨mb, ms, hb, hs, hread⟩ := hm.exists_pair rfl rfl
  obtain ⟨v, hv⟩ := read_blanks parsers.program.rules n hb cs
  rw [hread, hv, Reading.andThen, hs.read_reference rfl rfl lookup_grammar.2 hbody]
  cases entered parsers.program.rules n body (cs.dropWhile Unicode.isSpace) <;> rfl

/-- A program is read statement by statement. -/
theorem read_program (rules : Rules) (n : Nat) (hm : m.OfForm (grammar.run {}).2.registry Form.program) :
    ∃ next : Matcher, next.OfForm (grammar.run {}).2.registry Form.next ∧ ∀ cs,
      m.read rules n cs = (readRounds (next.read rules n) [] cs).andThen fun l rest =>
        .matched (programValue l) (rest.dropWhile Unicode.isSpace) := by
  obtain ⟨mr, mb, hr, hb, hread⟩ := hm.exists_pair rfl rfl
  obtain ⟨a, next, rfl, ha, hnext⟩ := hr.exists_repetition
  have hreshape : a.reshape = none := congrArg Attributes.reshape ha
  have hnull : a.nullable = false := congrArg Attributes.nullable ha
  refine ⟨next, hnext, fun cs => ?_⟩
  rw [hread, Matcher.read_repetition hreshape hnull, Reading.andThen_andThen]
  refine congrArg _ (funext fun l => funext fun rest => ?_)
  obtain ⟨v, hv⟩ := read_blanks rules n hb rest
  rw [Reading.andThen, hv]
  rfl

end

/-! ## In tandem -/

theorem next_compiled : ([false, true].all fun slashed =>
    ((Form.next.outline slots).meet (trailing slashed) .inside).any
      (·.all ([Joint.same Stage.inside, .same .edge, .same .start].contains ·)) &&
    (Form.next.outline slots).takes (trailing slashed).sure) = true := by
  decide +kernel

section

variable {parsers : Parsers} (h : Parsers.compiled = .ok parsers) (K : Trail c b y) (H : Apart t c)
  {n : Nat} {m body : Matcher} (hm : m.OfForm (grammar.run {}).2.registry Form.next)
  (hbody : (parsers.program.rules[9]?).join = some body)

include hm in
theorem takes_next (slashed : Bool) : m.outline.takes (trailing slashed).sure = true := by
  have hcheck := List.all_eq_true.mp next_compiled slashed (by cases slashed <;> decide)
  have houtline : m.outline = Form.next.outline slots := hm.outline
  rw [houtline]
  exact (Bool.and_eq_true_iff.mp hcheck).2

/-- What comes of the statements of a line, and of the line with what stands behind it. -/
abbrev Remarked (c y : List Char) : Reading (List Value) → Reading (List Value) → Prop :=
  Reading.Pairs
    (fun l s l' s' => (s'.dropWhile Unicode.isSpace = [] ↔ s.dropWhile Unicode.isSpace = []) ∧
      (s.dropWhile Unicode.isSpace = [] → l' = l ++ remarks c y))
    fun _ _ => False

include h K H hm hbody

/-- At the end of the line, only a comment is left. -/
theorem rounds_end (hr : r'.dropWhile Unicode.isSpace = y) (items : List Value) :
    Remarked c y (readRounds (m.read parsers.program.rules n) items [])
      (readRounds (m.read parsers.program.rules n) items r') := by
  have S := trailing_sound h K H rfl
  have hnext := read_next (n := n) hm hbody
  have hr' : m.read parsers.program.rules n r' = entered parsers.program.rules n body y := by rw [hnext, hr]
  have hnil : m.read parsers.program.rules n [] = entered parsers.program.rules n body [] := hnext []
  have hend : m.read parsers.program.rules n ['\n'] = m.read parsers.program.rules n [] := (hnext _).trans hnil.symm
  cases hread : m.read parsers.program.rules n [] with
  | matched v s => exact absurd hread (S.not_matched (takes_next hm _))
  | fatal =>
    rw [readRounds_of_fatal hread]
    exact .fatal
  | failed =>
    rw [readRounds_of_failed hread]
    rcases K.comment with rfl | rfl
    · rw [readRounds_of_failed (hr'.trans (hnil.symm.trans hread))]
      exact .matched ⟨iff_of_true hr rfl, fun _ => (List.append_nil _).symm⟩
    · cases n with
      | zero => cases hnil.symm.trans hread
      | succ n =>
        -- the comment is a statement, and behind it is only the end of its line
        have hcomment : m.read parsers.program.rules (n + 1) r' =
            .matched (.text (String.ofList ('/' :: '/' :: c))) ['\n'] :=
          hr'.trans (reads_statement h hbody H.commentBreak n)
        rw [readRounds_of_matched hcomment (S.length_lt (takes_next hm _) hcomment),
          readRounds_of_failed (hend.trans hread)]
        exact .matched ⟨iff_of_true rfl rfl, fun _ => List.reverse_cons⟩

/-- The statements of the line are the same, and a comment behind it is one more. -/
theorem rounds_remarks {r r' : List Char} (hr : Stage.inside.meets t b y r r') (items : List Value) :
    Remarked c y (readRounds (m.read parsers.program.rules n) items r)
      (readRounds (m.read parsers.program.rules n) items r') := by
  have S := trailing_sound h K H rfl
  have hcheck := List.all_eq_true.mp next_compiled (decide ('/' ∈ c)) (by cases decide ('/' ∈ c) <;> decide)
  obtain ⟨js, hjs, hall⟩ := (Option.any_eq_true _ _).mp (Bool.and_eq_true_iff.mp hcheck).1
  have houtline : m.outline = Form.next.outline slots := hm.outline
  rw [← houtline] at hjs
  refine Reading.Pairs.rounds (S.length_lt (takes_next hm _))
    ((trailing_covers h K H rfl n m).2 hjs hr) ?_ ?_ ?_
  · -- blanks do not bring the rest of the line to its end
    obtain ⟨hne, hs, rfl⟩ := hr
    have hrest := H.dropWhile_ne hne hs fun _ hd => hd
    refine ⟨iff_of_false ?_ hrest, fun hnil => absurd hnil hrest⟩
    rw [dropWhile_append_of_ne_nil hrest]
    exact List.append_ne_nil_of_left_ne_nil hrest _
  · rintro v s v' s' hlt ⟨j, hj, hholds⟩
    have hjoint := List.contains_iff_mem.mp (List.all_eq_true.mp hall j hj)
    simp only [List.mem_cons, List.not_mem_nil, or_false] at hjoint
    rcases hjoint with rfl | rfl | rfl
    · obtain ⟨rfl, hs⟩ := hholds
      exact rounds_remarks hs (v' :: items)
    · obtain ⟨rfl, rfl, rfl⟩ := hholds
      exact rounds_end h K H hm hbody K.dropWhile_isSpace (v' :: items)
    · obtain ⟨rfl, rfl, rfl⟩ := hholds
      refine rounds_end h K H hm hbody ?_ (v' :: items)
      exact dropWhile_of_head fun d hd => by rw [K.head_start hd]; rfl
  · rintro v' s' - ⟨z, hz, -⟩
    have hjoint := List.contains_iff_mem.mp (List.all_eq_true.mp hall _ hz)
    simp at hjoint
termination_by r.length

omit hm hbody in
/-- A comment behind a line is one more statement of the program. -/
theorem reads_program (hm : m.OfForm (grammar.run {}).2.registry Form.program) :
    Reading.Pairs
      (fun v s v' s' => (s' = [] ↔ s = []) ∧
        (s = [] → ∃ l, v = programValue l ∧ v' = programValue (l ++ remarks c y)))
      (fun _ _ => False)
      (m.read parsers.program.rules n t) (m.read parsers.program.rules n (t ++ (b ++ y))) := by
  obtain ⟨next, hnext, hread⟩ := read_program parsers.program.rules n hm
  obtain ⟨i, hi, hrule⟩ := Parsers.depicts h (rfl : Form.bodies "statement" = some Form.statement)
  obtain rfl : 9 = i := Option.some.inj (lookup_grammar.2.symm.trans hi)
  obtain ⟨body, hbody, -⟩ := eq_of_outlineOf hrule
  rw [hread, hread]
  refine Reading.Pairs.andThen
    (rounds_remarks h K H hnext hbody ⟨H.ne_nil, List.suffix_refl t, rfl⟩ []) ?_ nofun
  rintro l s l' s' ⟨hiff, hvalue⟩
  exact .matched ⟨hiff, fun hs => ⟨l, rfl, by rw [hvalue hs]⟩⟩

end

/-! ## The JavaScript of a program -/

/-- Another statement is another line. -/
theorem flatten_programValue_append (l : List Value) {text : String} (hne : text ≠ "") :
    (programValue (l ++ [.text text])).flatten = (programValue l).flatten ++ text ++ "\n" := by
  have hlines (l : List Value) : statementLines (.object (Fields.insert "body" (.list l) [])) =
      (l.map Value.flatten).filter (!·.isEmpty) := rfl
  have hempty : (!text.isEmpty) = true := by simpa using hne
  rw [programValue, programValue, renderProgram, renderProgram, hlines, hlines, List.map_append,
    List.filter_append]
  generalize (l.map Value.flatten).filter (!·.isEmpty) = lines
  have htext : ([Value.text text].map Value.flatten).filter (!·.isEmpty) = [text] := by
    rw [List.map_singleton, Value.flatten, List.filter_singleton, hempty]
    rfl
  rw [htext]
  cases lines with
  | nil =>
    rw [List.nil_append, String.intercalate_singleton]
    simp [Value.flatten]
  | cons line lines =>
    rw [String.intercalate_append_of_ne_nil (List.cons_ne_nil _ _) (List.cons_ne_nil _ _),
      String.intercalate_singleton]
    simp [Value.flatten, String.append_assoc]

/-- With enough entries, every text is read. -/
theorem Parsers.exists_read {parsers : Parsers} (hparsers : Parsers.compiled = .ok parsers)
    (input : List Char) : ∃ n, parsers.program.root.read parsers.program.rules n input ≠ .fatal := by
  obtain ⟨member, F, hid, hroot, -⟩ := Parsers.exists_family hparsers
  let options : Options := { maxDepth := 4 * (Text.width input + 1) }
  have hsettled : Outcome.Settled (parsers.program.parse options input) :=
    Parser.parse_not_tooDeep (Parsers.ranked hparsers) F hid hroot options input (Nat.le_refl _)
  refine (Parser.exists_read F hid hroot options input).resolve_left ?_
  rintro ⟨e, hparse, he⟩
  exact hsettled e hparse (Parsers.isTooDeep_of_isFatal hparsers hparse he)

theorem Parsers.ofForm_program {parsers : Parsers} (hparsers : Parsers.compiled = .ok parsers) :
    parsers.program.root.OfForm (grammar.run {}).2.registry Form.program :=
  ⟨_, grammar_forms.2.1, (Parser.compile_eq_ok (Parsers.eq_of_compiled hparsers).1).1⟩

/-- Blanks at the end of a line leave no trace. -/
theorem Parsers.read_of_blanks {parsers : Parsers} (hparsers : Parsers.compiled = .ok parsers)
    (H : Apart t c) (hblank : ∀ d ∈ b, d = ' ' ∨ d = '\t') {v : Value} {n : Nat}
    (hne : parsers.program.root.read parsers.program.rules n t ≠ .fatal)
    (hread : parsers.program.root.read parsers.program.rules n (t ++ b) = .matched v []) :
    parsers.program.root.read parsers.program.rules n t = .matched v [] := by
  by_cases hb : b = []
  · rwa [hb, List.append_nil] at hread
  · have K : Trail c b [] := ⟨hb, hblank, .inl rfl⟩
    have hpairs := reads_program (n := n) hparsers K H (Parsers.ofForm_program hparsers)
    rw [List.append_nil, hread] at hpairs
    generalize parsers.program.root.read parsers.program.rules n t = x at hne hpairs
    cases hpairs with
    | fatal => exact absurd rfl hne
    | alone h => exact h.elim
    | matched hboth =>
      obtain ⟨hiff, hvalue⟩ := hboth
      obtain rfl := hiff.mp rfl
      obtain ⟨l, rfl, rfl⟩ := hvalue rfl
      rw [remarks, if_pos rfl, List.append_nil]

/-- A comment behind a line is one more statement of the program. -/
theorem Parsers.read_remark {parsers : Parsers} (hparsers : Parsers.compiled = .ok parsers)
    (K : Trail c b (commentLine c)) (H : Apart t c) {v : Value} {n : Nat}
    (hread : parsers.program.root.read parsers.program.rules n t = .matched v [])
    (hne : parsers.program.root.read parsers.program.rules n (t ++ (b ++ commentLine c)) ≠ .fatal) :
    ∃ l, v = programValue l ∧
      parsers.program.root.read parsers.program.rules n (t ++ (b ++ commentLine c)) =
        .matched (programValue (l ++ [.text (String.ofList ('/' :: '/' :: c))])) [] := by
  have hpairs := reads_program (n := n) hparsers K H (Parsers.ofForm_program hparsers)
  rw [hread] at hpairs
  generalize parsers.program.root.read parsers.program.rules n (t ++ (b ++ commentLine c)) = x at hne hpairs
  cases hpairs with
  | secondFatal => exact absurd rfl hne
  | matched hboth =>
    obtain ⟨hiff, hvalue⟩ := hboth
    obtain rfl := hiff.mpr rfl
    obtain ⟨l, rfl, rfl⟩ := hvalue rfl
    exact ⟨l, rfl, rfl⟩

namespace Transpiler

theorem exists_parse_of_success {t : Transpiler} {source : List Char} {code : String}
    (h : t.transform source = .success code) :
    ∃ x, t.parsers.program.parse t.options source = .ok x ∧ x.value.flatten = code := by
  rw [transform] at h
  split at h
  · next x hparse => exact ⟨x, hparse, Option.some.inj (congrArg Output.code h)⟩
  · cases h
  · cases h

/-- A comment at the end of a line is kept on its own line behind the output of the line, whether or not
the line ends in a semicolon, if nothing in the line reaches into it. -/
theorem transform_remark {s : Settings} {t : Transpiler} (ht : ofSettings s = .ok t)
    {line blanks c : List Char} {code : String} (H : Apart line c)
    (hblank : ∀ d ∈ blanks, d = ' ' ∨ d = '\t')
    (hcode : t.transform (line ++ blanks) = .success code)
    (hdeep : ¬ (t.transform (line ++ blanks ++ " //".toList ++ c ++ ['\n'])).TooDeep) :
    t.transform (line ++ blanks ++ " //".toList ++ c ++ ['\n']) =
      .success (code ++ "//" ++ String.ofList c ++ "\n") := by
  obtain ⟨parsers, hparsers, rfl⟩ := eq_of_ofSettings ht
  obtain ⟨member, F, hid, hroot, -⟩ := Parsers.exists_family hparsers
  have K : Trail c (blanks ++ [' ']) (commentLine c) :=
    ⟨by simp, fun d hd => by
      rcases List.mem_append.mp hd with hd | hd
      · exact hblank d hd
      · exact .inl (List.mem_singleton.mp hd), .inr rfl⟩
  have hsource : line ++ blanks ++ " //".toList ++ c ++ ['\n'] = line ++ (blanks ++ [' '] ++ commentLine c) := by
    simp [commentLine]
  obtain ⟨x, hparse, rfl⟩ := exists_parse_of_success hcode
  -- with so many entries all three texts are read
  obtain ⟨n₁, hline⟩ := Parsers.exists_read hparsers line
  obtain ⟨n₂, hread⟩ := Parser.exists_read_of_parse F hid hroot rfl hparse
  obtain ⟨n₃, hlong⟩ := Parsers.exists_read hparsers (line ++ (blanks ++ [' '] ++ commentLine c))
  have hmax : n₁ ≤ max n₁ (max n₂ n₃) ∧ n₂ ≤ max n₁ (max n₂ n₃) ∧ n₃ ≤ max n₁ (max n₂ n₃) := by omega
  rw [← Matcher.read_mono_ne_fatal hline hmax.1] at hline
  rw [← Matcher.read_mono_ne_fatal hlong hmax.2.2] at hlong
  have hread := Parsers.read_of_blanks hparsers H hblank hline (Matcher.read_mono hread hmax.2.1)
  -- the comment is one more statement
  obtain ⟨l, hvalue, hremark⟩ := Parsers.read_remark hparsers K H hread hlong
  rw [hsource] at hdeep ⊢
  have hall : (optionsOf s).matchAll = true := rfl
  rcases Parser.parse_of_read F hid hroot hall hremark with ⟨e, hparse, he⟩ | ⟨x', hparse, hvalue'⟩
  · exact absurd (tooDeep_of_isFatal hparsers hparse he) hdeep
  · have hslashes : String.ofList (['/', '/'] ++ c) = "//" ++ String.ofList c := String.ofList_append
    have htext : String.ofList ('/' :: '/' :: c) = "//" ++ String.ofList c := hslashes
    rw [transform, hparse]
    refine congrArg Output.success ?_
    rw [hvalue', flatten_programValue_append l (by rw [htext]; simp), ← hvalue, htext, ← String.append_assoc]

/-- A statement that ends in a semicolon. -/
def callLine : List Char := "let a = f(\"b\");".toList

/-- A comment with slashes and quotation marks in it. -/
def pathRemark : List Char := " see 'path/to'".toList

theorem apart_callLine : Apart callLine pathRemark where
  last := ⟨"let a = f(\"b\")".toList, ';', rfl, rfl⟩
  line := by decide
  slash := by decide
  commentBreak := by decide
  commentSlash := fun _ => rfl
  quotes := by
    have hapart : ∀ q ∈ marks, q ∉ callLine ∨ q ∉ pathRemark := forall_mem_of_all (by decide)
    exact fun q hq h => (hapart q hq).resolve_left (not_not_intro h)
  angles := fun h => absurd h (by decide)
  closed := by
    intro pair hpair hclosing
    have hnone : ∀ pair ∈ bracketPairs, pair.2 ∉ pathRemark := by decide
    exact absurd hclosing (hnone pair hpair)
  extended := by decide
  declared := by
    intro front rest hline
    have hnone : ¬ "declare".toList <:+: callLine := by decide
    exact absurd ⟨front, rest, hline.symm⟩ hnone
  typeOnly := by
    intro word hword front blanks rest _ _ hline
    have hnone : ¬ "type".toList <:+: callLine := by decide
    exact absurd ⟨front ++ word.toList ++ blanks, rest, hline.symm⟩ hnone
  otherwise := by decide
  headed := by
    intro word _ front blanks x _ hline
    have hlast : callLine.getLast? = some ';' := by decide
    rw [hline] at hlast
    simp [List.getLast?_cons] at hlast

theorem remark_compiled : Parsers.compiled.toOption.any (fun parsers =>
    (parsers.plain.transform (callLine ++ [' '] ++ " //".toList ++ pathRemark ++
        ['\n'])).diagnostic.isNone &&
      [("let a = f(\"b\"); ", "let a = f(\"b\");\n"), ("let a = 1", "let a = 1;\n"),
        ("let a = 1 // see path/to/file\n", "let a = 1 // see path/to/file;\n"),
        ("let a = b / c // d\n", "let a = b / c // d;\n")].all
          (fun x => parsers.plain.transform x.1.toList = .success x.2)) = true := by
  rw [Parsers.compiled_eq]
  decide +kernel

/-- A comment behind a call. -/
theorem transform_remark_call : ∃ t : Transpiler, ofSettings {} = .ok t ∧
    t.transform (callLine ++ [' '] ++ " //".toList ++ pathRemark ++ ['\n']) =
      .success ("let a = f(\"b\");\n" ++ "//" ++ String.ofList pathRemark ++ "\n") := by
  obtain ⟨parsers, hparsers⟩ := Parsers.exists_compiled
  have hcheck := remark_compiled
  rw [hparsers] at hcheck
  simp only [Except.toOption, Option.any_some, List.all_cons, Bool.and_eq_true, decide_eq_true_eq] at hcheck
  obtain ⟨hnone, hcode, -⟩ := hcheck
  have ht := ofSettings_eq hparsers {}
  exact ⟨_, ht, transform_remark ht apart_callLine (by simp)
    (Parsers.transform_eq_of_plain hparsers hcode) (Parsers.not_tooDeep_of_plain hparsers hnone)⟩

/-- Behind an expression that could go on, a comment with a slash in it is taken for a regular expression
literal, and so is what stands between a slash and the comment. -/
theorem transform_remark_taken : ∃ t : Transpiler, ofSettings {} = .ok t ∧
    t.transform "let a = 1".toList = .success "let a = 1;\n" ∧
    t.transform "let a = 1 // see path/to/file\n".toList = .success "let a = 1 // see path/to/file;\n" ∧
    t.transform "let a = b / c // d\n".toList = .success "let a = b / c // d;\n" := by
  obtain ⟨parsers, hparsers⟩ := Parsers.exists_compiled
  have hcheck := remark_compiled
  rw [hparsers] at hcheck
  simp only [Except.toOption, Option.any_some, List.all_cons, List.all_nil, Bool.and_true,
    Bool.and_eq_true, decide_eq_true_eq] at hcheck
  obtain ⟨-, -, hone, hpath, hquotient⟩ := hcheck
  exact ⟨_, ofSettings_eq hparsers {}, Parsers.transform_eq_of_plain hparsers hone,
    Parsers.transform_eq_of_plain hparsers hpath, Parsers.transform_eq_of_plain hparsers hquotient⟩

end Transpiler

end Typestrip.TypeScript
