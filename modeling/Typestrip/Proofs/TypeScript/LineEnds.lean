import Typestrip.Proofs.TypeScript.Comments

/-!
# Expressions at the end of a line

A word goes on through the blanks behind a line, so that an expression that ends there has other pieces
with the blanks than without them (`Padded`). But blanks at its end are trimmed, so its value is the
same (`reads_expression`), and so is that of a statement that ends with it. With that all claims about
the rules hold: what is computed of a node is true of everything it reads of a line with and without a
comment behind it (`trailing_covers`).
-/

namespace Typestrip.TypeScript

open Grammar Regex

variable {t c b y r r' s s' : List Char} {α : Type}

/-! ## Values that differ in blanks -/

/-- Both texts have the same match, or the match in the second one has the blanks behind the line, too. -/
def Padded (t b y : List Char) (shown : α → String) (v : α) (s : List Char) (v' : α) (s' : List Char) :
    Prop :=
  v' = v ∧ (Stage.inside.meets t b y s s' ∨ Stage.edge.meets t b y s s') ∨
    Stage.start.meets t b y s s' ∧ shown v' = shown v ++ String.ofList b

/-- What comes of reading a line with and without what stands behind it. -/
abbrev Pads (t b y : List Char) (shown : α → String) : Reading α → Reading α → Prop :=
  Reading.Pairs (Padded t b y shown) fun _ _ => False

/-! ## Pieces -/

/-- The pieces of an expression that do not go on through blanks. -/
def closedPieces : List Node :=
  [Form.string, Form.blockComment, Form.arrowHead, Grammar.Form.reference "group", Form.regexLiteral,
    Form.division, Form.nextLine]

theorem mem_operands {form : Node} (h : form ∈ Form.operands) : form ∈ closedPieces ∨ form = Form.word := by
  simp only [Form.operands, List.mem_cons, List.not_mem_nil, or_false] at h
  simp only [closedPieces, List.mem_cons, List.not_mem_nil, or_false]
  tauto

theorem mem_pieces {form : Node} (h : form ∈ Form.pieces) :
    form ∈ closedPieces ∨ form = Form.word ∨ form = Form.operation := by
  rcases List.mem_append.mp h with h | h
  · exact (mem_operands h).imp_right .inl
  · simp only [List.mem_cons, List.not_mem_nil, or_false] at h
    simp only [closedPieces, List.mem_cons, List.not_mem_nil, or_false]
    tauto

/-- The operator of an operation, as the part of a sequence. -/
def leadForm : Node := Grammar.Form.capture "lead" (Grammar.Form.map reindent Form.operator)

/-- Checks how the matches of a node are related that begin at a stage. -/
def isComputedAs (form : Node) (q : Stage) (js : List (Joint Stage)) : Bool :=
  ((form.outline slots).meet (trailing false) q).any (·.all (js.contains ·))

theorem pieces_compiled :
    (closedPieces.all (isComputedAs · .inside [.same .inside, .same .edge]) &&
      (Form.operation :: closedPieces).all (isComputedAs · .edge []) &&
      Form.pieces.all (isComputedAs · .start []) && Form.operands.all (isComputedAs · .finish []) &&
      isComputedAs leadForm .inside [.same .inside, .apart .finish] &&
      Form.pieces.all fun form => (form.outline slots).takes (trailing false).sure) = true := by
  simp only [isComputedAs, Node.outline_eq_by]
  decide +kernel

/-- Where no slash is in the comment. -/
theorem open_sound {parsers : Parsers} (h : Parsers.compiled = .ok parsers) (K : Trail c b y)
    (H : Apart t c) (hslash : '/' ∉ c) :
    (trailing false).Sound (Stage.meets t b y) (b ++ y) parsers.program.rules :=
  trailing_sound h K H (decide_eq_false hslash).symm

section

variable {parsers : Parsers} (h : Parsers.compiled = .ok parsers) (K : Trail c b y) (H : Apart t c)
  (hslash : '/' ∉ c) {n : Nat} {m : Matcher} {form : Node} {q : Stage} {js : List (Joint Stage)}
  (hcovers : ∀ m, (trailing false).Covers (Stage.meets t b y) parsers.program.rules n m)

section

include hcovers

theorem meets_of_form (hm : m.OfForm (grammar.run {}).2.registry form)
    (hform : isComputedAs form q js = true) (hq : q.meets t b y r r') :
    Reading.Meets (Stage.meets t b y) js (m.read parsers.program.rules n r)
      (m.read parsers.program.rules n r') := by
  obtain ⟨js', hjs', hall⟩ := (Option.any_eq_true _ _).mp hform
  have houtline : m.outline = form.outline slots := hm.outline
  rw [← houtline] at hjs'
  exact ((hcovers m).2 hjs' hq).mono fun j hj => List.contains_iff_mem.mp (List.all_eq_true.mp hall j hj)

theorem pads_closed (hm : m.OfForm (grammar.run {}).2.registry form) (hform : form ∈ closedPieces)
    (hr : Stage.inside.meets t b y r r') : Pads t b y Value.flatten
      (m.read parsers.program.rules n r) (m.read parsers.program.rules n r') := by
  have hcheck := pieces_compiled
  simp only [Bool.and_eq_true] at hcheck
  have hmeets := meets_of_form hcovers hm (List.all_eq_true.mp hcheck.1.1.1.1.1 form hform) hr
  refine Reading.Pairs.mono hmeets ?_ ?_
  · rintro v s v' s' ⟨j, hj, hholds⟩
    simp only [List.mem_cons, List.not_mem_nil, or_false] at hj
    rcases hj with rfl | rfl
    · exact .inl ⟨hholds.1, .inl hholds.2⟩
    · exact .inl ⟨hholds.1, .inr hholds.2⟩
  · rintro v' s' ⟨z, hz, -⟩
    simp at hz

end

include K in
/-- A word goes on through the blanks. -/
theorem pads_word (hm : m.OfForm (grammar.run {}).2.registry Form.word)
    (hr : Stage.inside.meets t b y r r') : Pads t b y Value.flatten
      (m.read parsers.program.rules n r) (m.read parsers.program.rules n r') := by
  obtain ⟨a, expected, rfl, ha⟩ := hm.exists_pattern Form.outline_pieces.2.2.2.1
  have hreshape : a.reshape = none := congrArg Attributes.reshape ha
  have hnull : a.nullable = false := congrArg Attributes.nullable ha
  rw [Matcher.read_pattern hreshape hnull, Matcher.read_pattern hreshape hnull]
  obtain ⟨hne, hs, rfl⟩ := hr
  cases K.parallel_wordRun hne with
  | failed h h' =>
    rw [readPattern_of_none h.rest?, readPattern_of_none h'.rest?]
    exact .failed
  | inside hv hsuffix h h' =>
    obtain ⟨x, rfl⟩ := hsuffix
    have h' := h'.rest?
    rw [List.append_assoc] at h' ⊢
    rw [readPattern_of_rest? h.rest?, readPattern_of_rest? h']
    exact .matched (.inl ⟨rfl, .inl ⟨hv, (List.suffix_append x _).trans hs, rfl⟩⟩)
  | past h hw h' =>
    subst hw
    have h := h.rest?
    have h' := h'.rest?
    rw [← List.append_nil r] at h
    rw [← List.append_assoc] at h' ⊢
    have hread := readPattern_of_rest? h
    rw [List.append_nil] at hread
    rw [hread, readPattern_of_rest? h']
    exact .matched (.inr ⟨⟨rfl, rfl⟩, String.ofList_append⟩)

include K in
/-- At the end of the line, the blanks are a word by themselves. -/
theorem reads_word_edge (hm : m.OfForm (grammar.run {}).2.registry Form.word) :
    m.read parsers.program.rules n [] = .failed ∧
      m.read parsers.program.rules n (b ++ y) = .matched (.text (String.ofList b)) y := by
  obtain ⟨a, expected, rfl, ha⟩ := hm.exists_pattern Form.outline_pieces.2.2.2.1
  have hreshape : a.reshape = none := congrArg Attributes.reshape ha
  have hnull : a.nullable = false := congrArg Attributes.nullable ha
  rw [Matcher.read_pattern hreshape hnull, Matcher.read_pattern hreshape hnull,
    readPattern_of_none rfl, readPattern_of_rest? K.prefers_word.2.rest?]
  exact ⟨rfl, rfl⟩

section

include K hcovers

theorem pads_operand {a : Attributes}
    (hm : m.OfForm (grammar.run {}).2.registry (.choice a Form.operands)) (ha : a.reshape = none)
    (hnull : a.nullable = false) (hr : Stage.inside.meets t b y r r') :
    Pads t b y Value.flatten (m.read parsers.program.rules n r) (m.read parsers.program.rules n r') := by
  refine hm.pairs_choice ha hnull (fun form hform m hm => ?_) nofun
  rcases mem_operands hform with hclosed | rfl
  · exact pads_closed hcovers hm hclosed hr
  · exact pads_word K hm hr

theorem pads_operation (hm : m.OfForm (grammar.run {}).2.registry Form.operation)
    (hr : Stage.inside.meets t b y r r') :
    Pads t b y Value.flatten (m.read parsers.program.rules n r) (m.read parsers.program.rules n r') := by
  have hcheck := pieces_compiled
  simp only [Bool.and_eq_true] at hcheck
  obtain ⟨ml, mr, hl, hmr, hread⟩ := hm.exists_pair rfl rfl
  rw [hread, hread]
  refine Reading.Pairs.andThen (meets_of_form hcovers hl hcheck.1.2 hr) ?_ ?_
  · rintro v s v' s' ⟨j, hj, hholds⟩
    simp only [List.mem_cons, List.not_mem_nil, or_false] at hj
    rcases hj with rfl | rfl
    · obtain ⟨rfl, hs⟩ := hholds
      refine Reading.Pairs.andThen (pads_operand K hcovers hmr rfl rfl hs) ?_ nofun
      rintro w u w' u' (⟨rfl, hu⟩ | ⟨hu, hw⟩)
      · exact .matched (.inl ⟨rfl, hu⟩)
      · refine .matched (.inr ⟨hu, ?_⟩)
        show v'.flatten ++ w'.flatten = v'.flatten ++ w.flatten ++ String.ofList b
        rw [hw, String.append_assoc]
    · -- no operand is left
      obtain ⟨rfl, hs⟩ := hholds
      have hnone : Reading.Pairs (fun _ _ _ _ => False) (fun _ _ => False)
          (mr.read parsers.program.rules n []) (mr.read parsers.program.rules n s') :=
        hmr.pairs_choice rfl rfl (fun form hform m hm => Reading.Meets.pairs_of_nil
          (meets_of_form hcovers hm (List.all_eq_true.mp hcheck.1.1.2 form hform) hs)) nofun
      exact hnone.andThen nofun nofun
  · rintro v' s' ⟨z, hz, -⟩
    simp at hz

end

/-! ## Rounds of pieces -/

theorem flattenItems_reverse_cons (v : Value) (items : List Value) : Value.flattenItems (v :: items).reverse =
    Value.flattenItems items.reverse ++ v.flatten := by
  rw [List.reverse_cons, Value.flattenItems_append, Value.flattenItems, Value.flattenItems, String.append_empty]

theorem allTake_outlineAll {sure : Nat → Bool} {forms : List Node}
    (h : ∀ form ∈ forms, (form.outline slots).takes sure = true) :
    Outline.allTake sure (Node.outlineAll slots forms) = true := by
  induction forms with
  | nil => rfl
  | cons form forms ih =>
    obtain ⟨hform, hforms⟩ := List.forall_mem_cons.mp h
    exact Bool.and_eq_true_iff.mpr ⟨hform, ih hforms⟩

section

variable {a : Attributes} (hm : m.OfForm (grammar.run {}).2.registry (.choice a Form.pieces))
  (ha : a.reshape = none) (hnull : a.nullable = false)

include hm

theorem takes_of_pieces (hnull : a.nullable = false) : m.outline.takes (trailing false).sure = true := by
  have hcheck := pieces_compiled
  simp only [Bool.and_eq_true, List.all_eq_true] at hcheck
  have hchoice := allTake_outlineAll hcheck.2
  rw [hm.outline, Node.outline, Attributes.outline, hnull]
  cases a.capture.isSome <;> exact hchoice

include ha hnull

section

include K hcovers

theorem pads_piece (hr : Stage.inside.meets t b y r r') :
    Pads t b y Value.flatten (m.read parsers.program.rules n r) (m.read parsers.program.rules n r') := by
  refine hm.pairs_choice ha hnull (fun form hform m hm => ?_) nofun
  rcases mem_pieces hform with hclosed | rfl | rfl
  · exact pads_closed hcovers hm hclosed hr
  · exact pads_word K hm hr
  · exact pads_operation K hcovers hm hr

end

include hcovers

/-- Behind the blanks there is no piece. -/
theorem piece_start (hr : Stage.start.meets t b y r r') :
    Reading.Pairs (fun _ _ _ _ => False) (fun _ _ => False)
      (m.read parsers.program.rules n r) (m.read parsers.program.rules n r') := by
  have hcheck := pieces_compiled
  simp only [Bool.and_eq_true] at hcheck
  exact hm.pairs_choice ha hnull (fun form hform m hm => Reading.Meets.pairs_of_nil
    (meets_of_form hcovers hm (List.all_eq_true.mp hcheck.1.1.1.2 form hform) hr)) nofun

include h K H hslash

omit hcovers ha in
theorem length_lt_of_piece {v : Value} {cs rest : List Char}
    (hread : m.read parsers.program.rules n cs = .matched v rest) : rest.length < cs.length :=
  (open_sound h K H hslash).length_lt (takes_of_pieces hm hnull) hread

theorem rounds_start (hr : Stage.start.meets t b y r r') (items items' : List Value) :
    Reading.Pairs (fun l s l' s' => l = items.reverse ∧ l' = items'.reverse ∧ Stage.start.meets t b y s s')
      (fun _ _ => False) (readRounds (m.read parsers.program.rules n) items r)
      (readRounds (m.read parsers.program.rules n) items' r') :=
  Reading.Pairs.rounds (length_lt_of_piece h K H hslash hm hnull)
    (piece_start hcovers hm ha hnull hr) ⟨rfl, rfl, hr⟩ (fun _ hnone => hnone.elim)
    fun _ hnone => hnone.elim

/-- At the end of the line, the blanks are the only piece there may be. -/
theorem piece_edge (hr : Stage.edge.meets t b y r r') : Reading.Pairs (fun _ _ _ _ => False)
    (fun v' s' => Stage.start.meets t b y [] s' ∧ v'.flatten = String.ofList b)
    (m.read parsers.program.rules n r) (m.read parsers.program.rules n r') := by
  have hcheck := pieces_compiled
  simp only [Bool.and_eq_true] at hcheck
  have S := open_sound h K H hslash
  obtain ⟨rfl, rfl⟩ := hr
  refine hm.pairs_choice ha hnull (fun form hform m hm => ?_) fun _ form hform m hm v s => ?_
  · by_cases hword : form = Form.word
    · subst hword
      obtain ⟨hnil, hblanks⟩ := reads_word_edge (n := n) K hm
      rw [hnil, hblanks]
      exact .alone ⟨⟨rfl, rfl⟩, rfl⟩
    · have hmem : form ∈ Form.operation :: closedPieces := by
        rcases mem_pieces hform with h | h | h
        · exact List.mem_cons_of_mem _ h
        · exact absurd h hword
        · exact h ▸ List.mem_cons_self
      exact Reading.Meets.pairs_of_nil
        (meets_of_form hcovers hm (List.all_eq_true.mp hcheck.1.1.1.1.2 form hmem) ⟨rfl, rfl⟩)
  · have houtline : m.outline = form.outline slots := hm.outline
    exact S.not_matched (houtline ▸ List.all_eq_true.mp hcheck.2 form hform)

theorem rounds_edge (hr : Stage.edge.meets t b y r r') (items : List Value) :
    Pads t b y Value.flattenItems (readRounds (m.read parsers.program.rules n) items r)
      (readRounds (m.read parsers.program.rules n) items r') := by
  refine Reading.Pairs.rounds (length_lt_of_piece h K H hslash hm hnull)
    (piece_edge h K H hslash hcovers hm ha hnull hr) (.inl ⟨rfl, .inr hr⟩)
    (fun _ hnone => hnone.elim) ?_
  rintro v' s' hfailed ⟨hs, hflat⟩
  -- behind the blanks there is no further round
  have hrest := rounds_start h K H hslash hcovers hm ha hnull hs items (v' :: items)
  obtain ⟨rfl, -⟩ := hr
  rw [readRounds_of_failed hfailed] at hrest
  refine hrest.mono ?_ id
  rintro l u l' u' ⟨rfl, rfl, hu⟩
  refine .inr ⟨hu, ?_⟩
  rw [flattenItems_reverse_cons, hflat]

theorem rounds_inside {r r' : List Char} (hr : Stage.inside.meets t b y r r') (items : List Value) :
    Pads t b y Value.flattenItems (readRounds (m.read parsers.program.rules n) items r)
      (readRounds (m.read parsers.program.rules n) items r') := by
  refine Reading.Pairs.rounds (length_lt_of_piece h K H hslash hm hnull)
    (pads_piece K hcovers hm ha hnull hr) (.inl ⟨rfl, .inl hr⟩) ?_ fun _ hnone => hnone.elim
  rintro v s v' s' hlt (⟨rfl, hs | hs⟩ | ⟨hs, hflat⟩)
  · exact rounds_inside hs (v' :: items)
  · exact rounds_edge h K H hslash hcovers hm ha hnull hs (v' :: items)
  · refine (rounds_start h K H hslash hcovers hm ha hnull hs (v :: items) (v' :: items)).mono ?_ id
    rintro l u l' u' ⟨rfl, rfl, hu⟩
    refine .inr ⟨hu, ?_⟩
    rw [flattenItems_reverse_cons, flattenItems_reverse_cons, hflat, String.append_assoc]
termination_by r.length

end

/-! ## Expressions -/

theorem trimEnd_append_of_blank {x z : List Char} (hz : ∀ d ∈ z, Unicode.isSpace d = true) :
    Text.trimEnd (x ++ z) = Text.trimEnd x := by
  rw [Text.trimEnd, Text.trimEnd, List.reverse_append,
    List.dropWhile_append_of_pos fun d hd => hz d (List.mem_reverse.mp hd)]

/-- The value of an expression with these pieces. -/
def expressionValue (head : Value) (tail : List Value) : Value :=
  .text (String.ofList (Text.trimEnd (head.flatten ++ Value.flattenItems tail).toList))

theorem expressionValue_of_padded (K : Trail c b y) {head head' : Value} {tail tail' : List Value}
    (hflat : head'.flatten ++ Value.flattenItems tail' =
      head.flatten ++ Value.flattenItems tail ++ String.ofList b) :
    expressionValue head' tail' = expressionValue head tail := by
  rw [expressionValue, expressionValue, hflat, String.toList_append, String.toList_ofList,
    trimEnd_append_of_blank fun d hd => K.blank_isSpace hd]

/-- An expression is read piece by piece. -/
theorem exists_pieces {rules : Rules} {name : String}
    (hm : m.OfForm (grammar.run {}).2.registry (Grammar.Form.capture name Form.expression)) :
    ∃ (a a' : Attributes) (head piece : Matcher),
      head.OfForm (grammar.run {}).2.registry (.choice a Form.pieces) ∧
      piece.OfForm (grammar.run {}).2.registry (.choice a' Form.pieces) ∧
      a.reshape = none ∧ a.nullable = false ∧ a'.reshape = none ∧ a'.nullable = false ∧
      ∀ cs, m.read rules n cs = (head.read rules n cs).andThen fun v rest =>
        (readRounds (piece.read rules n) [] rest).andThen fun l rest' =>
          .matched (expressionValue v l) rest' := by
  obtain ⟨head, tail, hhead, htail, hread⟩ := hm.exists_pair rfl rfl
  obtain ⟨a', piece, rfl, ha', hpiece⟩ := htail.exists_repetition
  have hreshape : a'.reshape = none := congrArg Attributes.reshape ha'
  have hnull : a'.nullable = false := congrArg Attributes.nullable ha'
  refine ⟨_, _, head, piece, hhead, hpiece, rfl, rfl, rfl, rfl, fun cs => ?_⟩
  rw [hread]
  refine congrArg _ (funext fun v => funext fun rest => ?_)
  rw [Matcher.read_repetition hreshape hnull, Reading.andThen_andThen]
  rfl

include h K H hslash hcovers

/-- Blanks at the end of the line leave no trace in the value of an expression. -/
theorem reads_expression {name : String}
    (hm : m.OfForm (grammar.run {}).2.registry (Grammar.Form.capture name Form.expression))
    (hr : Stage.inside.meets t b y r r') :
    Reading.Meets (Stage.meets t b y) [.same .inside, .same .edge, .same .start]
      (m.read parsers.program.rules n r) (m.read parsers.program.rules n r') := by
  obtain ⟨a, a', head, piece, hhead, hpiece, ha, hnull, ha', hnull', hread⟩ := exists_pieces hm
  rw [hread, hread]
  have hpads {v : Value} {l : List Value} {u : List Char} {l' : List Value} {u' : List Char}
      (hl : Padded t b y Value.flattenItems l u l' u') :
      Reading.Meets (Stage.meets t b y) [.same .inside, .same .edge, .same .start]
        (.matched (expressionValue v l) u) (.matched (expressionValue v l') u') := by
    rcases hl with ⟨rfl, hu | hu⟩ | ⟨hu, hflat⟩
    · exact .matched ⟨.same .inside, by simp, rfl, hu⟩
    · exact .matched ⟨.same .edge, by simp, rfl, hu⟩
    · exact .matched ⟨.same .start, by simp,
        expressionValue_of_padded K (by rw [hflat, String.append_assoc]), hu⟩
  refine Reading.Pairs.andThen (pads_piece K hcovers hhead ha hnull hr) ?_ nofun
  rintro v s v' s' (⟨rfl, hs | hs⟩ | ⟨hs, hflat⟩)
  · exact Reading.Pairs.andThen (rounds_inside h K H hslash hcovers hpiece ha' hnull' hs []) hpads nofun
  · exact Reading.Pairs.andThen (rounds_edge h K H hslash hcovers hpiece ha' hnull' hs []) hpads nofun
  · refine Reading.Pairs.andThen (rounds_start h K H hslash hcovers hpiece ha' hnull' hs [] []) ?_ nofun
    rintro l u l' u' ⟨rfl, rfl, hu⟩
    refine .matched ⟨.same .start, by simp, expressionValue_of_padded K ?_, hu⟩
    rw [hflat, List.reverse_nil, Value.flattenItems, String.append_empty, String.append_empty]

end

/-! ## Statements that end with an expression -/

/-- A node, and what is computed of it. -/
def part (form : Node) : Tandem.Part Stage := (form.outline slots, (form.outline slots).meet (trailing false))

/-- A node made of some nodes in a row. -/
def sequencePart (a : Attributes) (ps : List (Tandem.Part Stage)) : Tandem.Part Stage :=
  (a.outline (.sequence (ps.map (·.1))), (trailing false).dress a ((trailing false).row ps))

/-- An expression, and what is shown of it. -/
def expressionPart (name : String) : Tandem.Part Stage :=
  ((Grammar.Form.capture name Form.expression).outline slots, fun q =>
    if q = .inside then some [.same .inside, .same .edge, .same .start]
    else (part (Grammar.Form.capture name Form.expression)).2 q)

def initializerPart : Tandem.Part Stage :=
  sequencePart (Grammar.Form.capture "init" (Grammar.Form.nullable Form.initializer)).attributes
    [part Form.blanks, part (Grammar.Form.literal "="), part Form.blanks, expressionPart "value"]

def bindingPart : Tandem.Part Stage :=
  sequencePart Form.binding.attributes
    [part (Grammar.Form.capture "kind" (Grammar.Form.regex "(?:export\\s+)?(?:let|const|var)\\b")),
      part Form.someBlanks,
      part (Grammar.Form.capture "name" (Grammar.Form.choice
        [Form.identifier, Grammar.Form.reference "group"])),
      part (Grammar.Form.nullable (Grammar.Form.regex "!")), part Form.annotation, initializerPart,
      part Form.terminator]

def argumentPart : Tandem.Part Stage :=
  sequencePart (Grammar.Form.capture "argument" (Grammar.Form.nullable Form.argument)).attributes
    [part (Grammar.Form.regex "[ \\t]*"), expressionPart "value"]

def returnedPart : Tandem.Part Stage :=
  sequencePart Form.returned.attributes
    [part (Grammar.Form.regex "return\\b"), argumentPart, part Form.terminator]

def standingPart : Tandem.Part Stage :=
  sequencePart Form.standing.attributes [expressionPart "expression", part Form.terminator]

/-- The alternatives of a statement. -/
def statementParts : List (Tandem.Part Stage) :=
  ([Form.comment] ++ Form.erased ++ [Form.function, Form.conditional, Form.loop]).map part ++
    [bindingPart, returnedPart, part (Grammar.Form.reference "block"), part Form.empty, standingPart]

def statementPart : Tandem.Part Stage :=
  (Form.statement.attributes.outline (.choice (statementParts.map (·.1))),
    (trailing false).dress Form.statement.attributes ((trailing false).oneOf statementParts))

theorem part_eq_by : part = fun form =>
    (form.outlineBy Utf8.charsOf slots, (form.outlineBy Utf8.charsOf slots).meet (trailing false)) := by
  funext form
  rw [part, Node.outline_eq_by]

theorem statementPart_compiled : (statementPart.2 .inside).any
    (·.all ([Joint.same Stage.inside, .same .edge, .same .start].contains ·)) = true := by
  simp only [statementPart, statementParts, bindingPart, initializerPart, returnedPart, argumentPart,
    standingPart, sequencePart, expressionPart, part_eq_by, Node.outline_eq_by]
  decide +kernel

section

variable {parsers : Parsers} (h : Parsers.compiled = .ok parsers) (K : Trail c b y) (H : Apart t c)
  (hslash : '/' ∉ c) {n : Nat} {m : Matcher} {form : Node}
  (hcovers : ∀ m, (trailing false).Covers (Stage.meets t b y) parsers.program.rules n m)

include hcovers

theorem bears_part (hm : m.OfForm (grammar.run {}).2.registry form) :
    m.Bears (Stage.meets t b y) parsers.program.rules n (part form) := by
  have hbears := hcovers m
  have houtline : m.outline = form.outline slots := hm.outline
  rw [Tandem.Covers, houtline] at hbears
  exact hbears

theorem forall₂_bears_part (forms : List Node) : List.Forall₂ (fun form p => ∀ {m : Matcher},
    m.OfForm (grammar.run {}).2.registry form → m.Bears (Stage.meets t b y) parsers.program.rules n p)
      forms (forms.map part) :=
  List.forall₂_map_right_iff.mpr (List.forall₂_same.mpr fun _ _ => bears_part hcovers)

include h K H hslash

theorem bears_expression {name : String}
    (hm : m.OfForm (grammar.run {}).2.registry (Grammar.Form.capture name Form.expression)) :
    m.Bears (Stage.meets t b y) parsers.program.rules n (expressionPart name) := by
  have hbears := bears_part hcovers hm
  refine ⟨hbears.1, fun q js r r' hjs hr => ?_⟩
  dsimp only [expressionPart] at hjs
  split at hjs
  · next hq =>
    subst hq
    obtain rfl := Option.some.inj hjs
    exact reads_expression h K H hslash hcovers hm hr
  · exact hbears.2 hjs hr

/-- A statement comes to the end of the line, or through the blanks there if it ends with an
expression. -/
theorem reads_statement_inside (hm : m.OfForm (grammar.run {}).2.registry Form.statement)
    (hr : Stage.inside.meets t b y r r') :
    Reading.Meets (Stage.meets t b y) [.same .inside, .same .edge, .same .start]
      (m.read parsers.program.rules n r) (m.read parsers.program.rules n r') := by
  have S := open_sound h K H hslash
  have bears {m : Matcher} {form : Node} : m.OfForm (grammar.run {}).2.registry form →
      m.Bears (Stage.meets t b y) parsers.program.rules n (part form) := bears_part hcovers
  have expression {m : Matcher} {name : String} :
      m.OfForm (grammar.run {}).2.registry (Grammar.Form.capture name Form.expression) →
      m.Bears (Stage.meets t b y) parsers.program.rules n (expressionPart name) :=
    bears_expression h K H hslash hcovers
  have initializer {m : Matcher} (hm : m.OfForm (grammar.run {}).2.registry
      (Grammar.Form.capture "init" (Grammar.Form.nullable Form.initializer))) :
      m.Bears (Stage.meets t b y) parsers.program.rules n initializerPart :=
    S.bears_sequence_of_form hm (.cons bears (.cons bears (.cons bears (.cons expression .nil))))
  have argument {m : Matcher} (hm : m.OfForm (grammar.run {}).2.registry
      (Grammar.Form.capture "argument" (Grammar.Form.nullable Form.argument))) :
      m.Bears (Stage.meets t b y) parsers.program.rules n argumentPart :=
    S.bears_sequence_of_form hm (.cons bears (.cons expression .nil))
  have binding {m : Matcher} (hm : m.OfForm (grammar.run {}).2.registry Form.binding) :
      m.Bears (Stage.meets t b y) parsers.program.rules n bindingPart :=
    S.bears_sequence_of_form hm (.cons bears (.cons bears (.cons bears (.cons bears (.cons bears
      (.cons initializer (.cons bears .nil)))))))
  have returned {m : Matcher} (hm : m.OfForm (grammar.run {}).2.registry Form.returned) :
      m.Bears (Stage.meets t b y) parsers.program.rules n returnedPart :=
    S.bears_sequence_of_form hm (.cons bears (.cons argument (.cons bears .nil)))
  have standing {m : Matcher} (hm : m.OfForm (grammar.run {}).2.registry Form.standing) :
      m.Bears (Stage.meets t b y) parsers.program.rules n standingPart :=
    S.bears_sequence_of_form hm (.cons expression (.cons bears .nil))
  have hbears : m.Bears (Stage.meets t b y) parsers.program.rules n statementPart :=
    S.bears_choice_of_form hm (List.rel_append (forall₂_bears_part hcovers
      ([Form.comment] ++ Form.erased ++ [Form.function, Form.conditional, Form.loop]))
      (.cons binding (.cons returned (.cons bears (.cons bears (.cons standing .nil))))))
  obtain ⟨js, hjs, hall⟩ := (Option.any_eq_true _ _).mp statementPart_compiled
  exact (hbears.2 hjs hr).mono fun j hj => List.contains_iff_mem.mp (List.all_eq_true.mp hall j hj)

end

/-! ## All nodes -/

/-- What is computed of nodes holds of everything that is read of a line with and without what stands
behind it. -/
theorem trailing_covers {parsers : Parsers} (h : Parsers.compiled = .ok parsers) (K : Trail c b y)
    (H : Apart t c) {slashed : Bool} (hslashed : slashed = decide ('/' ∈ c)) (n : Nat) (m : Matcher) :
    (trailing slashed).Covers (Stage.meets t b y) parsers.program.rules n m := by
  refine (trailing_sound h K H hslashed).covers (fun {slot q js body n r r'} hrule hbody hcovers hq => ?_) n m
  by_cases hargued : isArgued slashed slot q = true
  · obtain ⟨hnine, hq'⟩ := Bool.and_eq_true_iff.mp hargued
    obtain rfl := beq_iff_eq.mp hnine
    rcases Bool.or_eq_true_iff.mp hq' with hstart | hinside
    · obtain rfl := beq_iff_eq.mp hstart
      obtain rfl := Option.some.inj hrule
      exact reads_rule_start h K H hbody hq
    · obtain ⟨hnot, hinside⟩ := Bool.and_eq_true_iff.mp hinside
      obtain rfl := beq_iff_eq.mp hinside
      obtain rfl : slashed = false := by simpa using hnot
      obtain rfl := Option.some.inj hrule
      have hslash : '/' ∉ c := of_decide_eq_false hslashed.symm
      exact reads_statement_inside h K H hslash hcovers (ofForm_statement h hbody) hq
  · exact reads_rule h K H (Bool.eq_false_of_not_eq_true hargued) hrule hbody (hcovers body) hq

end Typestrip.TypeScript
