import Typestrip.Proofs.Grammar.Readers
import Typestrip.Proofs.TypeScript.Declarators
import Typestrip.Proofs.TypeScript.Trailing

/-!
# The grammar at the end of a line

What is claimed of the rules where a line is read with and without a comment behind it (`ruleJoints`):
groups, types and blocks end in the line, and a statement may go on through the blanks behind it, but
only a comment begins there. Most of this is borne out by computation (`trailing_compiled`). Where a
bracket of the line would be closed in the comment, more comes out than is claimed, and the line has to
see to it that this does not happen (`reads_rule`). Two claims need another argument: a statement that
begins at the comment is the comment (`reads_rule_start`), and the blanks behind a line leave no trace
in a statement that ends with an expression, which is what comes next.
-/

namespace Typestrip.TypeScript

open Grammar Regex

variable {t c b y r r' s s' : List Char} {js : List (Joint Stage)} {q : Stage} {slashed : Bool}

/-! ## The tandem -/

/-- What is claimed of the rules: the groups, the types, blocks and statements. -/
def ruleJoints (slashed : Bool) (slot : Nat) : Stage → Option (List (Joint Stage))
  | .inside =>
    if slot < 9 then some (.same .inside :: if slashed then [] else [.same .edge])
    else if slot = 9 then some [.same .inside, .same .edge, .same .start]
    else none
  | .headed => if slot = 0 then some [.same .inside] else none
  | .edge => if slot < 9 then some [] else none
  | .start => if slot < 9 then some [] else if slot = 9 then some [.alone .break_] else none
  | .halved => if slot < 5 then some [] else none
  | .break_ => none
  | .finish => if slot < 10 then some [] else none
  | .beyond => if slot < 5 then some [.alone .beyond] else none

/-- A line, and the line with a comment behind it. -/
def trailing (slashed : Bool) : Tandem Stage where
  size := 8
  sure slot := decide (slot < 10)
  ended q := decide (q ∉ [.inside, .headed])
  along q := decide (q ∈ [.inside, .headed, .edge])
  terminal
    | .literal text => literalJoints slashed text
    | .pattern (.seq (.look .textStart) e) => patternJoints slashed e
    | _ => fun _ => none
  rule := ruleJoints slashed

/-- All stages. -/
def stages : List Stage := [.inside, .headed, .edge, .start, .halved, .break_, .finish, .beyond]

/-- What is computed of groups although it does not come about. -/
def spareJoints (slot : Nat) : Stage → List (Joint Stage)
  | .inside => if slot ∈ [0, 1, 2, 4] then [.alone .beyond] else []
  | .headed => if slot = 0 then [.same .edge, .alone .beyond] else []
  | _ => []

/-- The claims that need another argument: where a statement begins at the comment, and where an expression
ends in front of it. -/
def isArgued (slashed : Bool) (slot : Nat) (q : Stage) : Bool :=
  slot == 9 && (q == .start || (!slashed && q == .inside))

/-- Checks what is claimed of a rule. -/
def trailingBy (slashed : Bool) (slot : Nat) (o : Outline) (q : Stage) : Bool :=
  let T := trailing slashed
  isArgued slashed slot q ||
    (T.chart.rule slot q).all (fun out => (o.reach T.chart [q]).any (·.all (out.contains ·))) &&
      (T.rule slot q).all fun js => (o.meet T q).any (·.all ((js ++ spareJoints slot q).contains ·))

theorem trailing_compiled : Parsers.compiled.toOption.any (fun parsers =>
    [false, true].all fun slashed => (List.range 10).all fun slot =>
      (outlineOf parsers.program.rules slot).all fun o =>
        o.takes (trailing slashed).sure && stages.all (trailingBy slashed slot o)) = true := by
  rw [Parsers.compiled_eq]
  decide +kernel

/-! ## What is checked -/

theorem mem_stages (q : Stage) : q ∈ stages := by
  cases q <;> decide

/-- No more is claimed of rules than is shown. -/
theorem lt_of_ruleJoints {slot : Nat} (hout : ruleJoints slashed slot q = some js) : slot < 10 := by
  by_contra hslot
  have hnot : ¬ slot < 9 ∧ ¬ slot = 9 ∧ ¬ slot = 0 ∧ ¬ slot < 5 := by omega
  cases q <;> simp [ruleJoints, hnot, hslot] at hout

theorem lt_of_chart {slot : Nat} {out : List Stage} (hout : (trailing slashed).chart.rule slot q = some out) :
    slot < 10 := by
  dsimp only [Tandem.chart] at hout
  split at hout
  · obtain ⟨js, hjs, -⟩ := Option.map_eq_some_iff.mp hout
    exact lt_of_ruleJoints hjs
  · cases hout

section

variable {parsers : Parsers} (h : Parsers.compiled = .ok parsers) {slot : Nat} {o : Outline}

include h

theorem takes_of_slot (hslot : slot < 10) (ho : outlineOf parsers.program.rules slot = some o)
    (slashed : Bool) :
    o.takes (trailing slashed).sure = true ∧ ∀ q, trailingBy slashed slot o q = true := by
  have hcheck := trailing_compiled
  rw [h, Except.toOption, Option.any_some, List.all_eq_true] at hcheck
  have hslots := hcheck slashed (by cases slashed <;> decide)
  have hslot := List.all_eq_true.mp hslots slot (List.mem_range.mpr hslot)
  rw [ho, Option.all_some] at hslot
  obtain ⟨htakes, hstages⟩ := Bool.and_eq_true_iff.mp hslot
  exact ⟨htakes, fun q => List.all_eq_true.mp hstages q (mem_stages q)⟩

omit h in
theorem eq_of_outlineOf {rules : Rules} (ho : outlineOf rules slot = some o) :
    ∃ body, (rules[slot]?).join = some body ∧ body.outline = o :=
  Option.map_eq_some_iff.mp ho

omit h in
/-- What a rule does, its outline says. -/
theorem leaves_of_body {rules : Rules} {body : Matcher} {n : Nat} {r : Option (List Char)} {cs : List Char}
    (hbody : (rules[slot]?).join = some body) (ho : outlineOf rules slot = some o)
    (hr : (body.read rules n cs).leaves? = some r) : Leaves (outlineOf rules) o cs r := by
  rw [outlineOf, hbody] at ho
  obtain rfl := Option.some.inj ho
  exact Matcher.leaves_of_read hr

/-- The body of the rule for statements. -/
theorem ofForm_statement {body : Matcher} (hbody : (parsers.program.rules[9]?).join = some body) :
    body.OfForm (grammar.run {}).2.registry Form.statement := by
  have hstatement : formsOf (grammar.run {}).2.registry.body? "statement" = some Form.statement := by
    rw [grammar_forms.1]
    rfl
  obtain ⟨n, hn, hform⟩ := Option.map_eq_some_iff.mp hstatement
  have hlinked := Parser.compile_reference (Parsers.eq_of_compiled h).1 "statement"
  rw [hn, Option.map_some] at hlinked
  obtain ⟨m, hslot, hm⟩ := Option.map_eq_some_iff.mp hlinked.symm
  rw [lookup_grammar.2, Option.bind_some, hbody] at hslot
  obtain rfl := Option.some.inj hslot
  exact ⟨n, hform, hm.symm⟩

/-- A comment is tried first. -/
theorem exists_comment {body : Matcher} (hbody : (parsers.program.rules[9]?).join = some body) :
    ∃ a a' expected ms, body = .choice a (.pattern a' (.anchored commentText) expected :: ms) ∧
      a.reshape = none ∧ a'.reshape = none := by
  obtain ⟨a, ms, rfl, ha, hms⟩ := (ofForm_statement h hbody).exists_choice
  obtain ⟨mc, ms, hmc, -, rfl⟩ := List.forall₂_cons_left_iff.mp hms
  obtain ⟨a', expected, rfl, ha'⟩ := hmc.exists_pattern Form.outline_pieces.2.2.2.2.1
  exact ⟨a, a', expected, ms, rfl, congrArg Attributes.reshape ha, congrArg Attributes.reshape ha'⟩

end

/-- At a comment, the statement is the comment. -/
theorem reads_statement {parsers : Parsers} (h : Parsers.compiled = .ok parsers) {body : Matcher}
    (hbody : (parsers.program.rules[9]?).join = some body) (hbreak : '\n' ∉ c) (n : Nat) :
    body.read parsers.program.rules n (commentLine c) =
      .matched (.text (String.ofList ('/' :: '/' :: c))) ['\n'] := by
  obtain ⟨a, a', expected, ms, rfl, ha, ha'⟩ := exists_comment h hbody
  have hread : readPattern (.anchored commentText) (commentLine c) = .matched ('/' :: '/' :: c) ['\n'] :=
    readPattern_of_rest? (x := '/' :: '/' :: c) (prefers_comment hbreak).rest?
  rw [Matcher.read, Matcher.reads, Matcher.readsFirst, Matcher.reads, hread]
  simp only [Attributes.settle, Attributes.reshaped_of_none ha, Attributes.reshaped_of_none ha']

/-- The same, as far as texts go. -/
theorem leaves_statement {parsers : Parsers} (h : Parsers.compiled = .ok parsers) {o : Outline}
    (ho : outlineOf parsers.program.rules 9 = some o) (hbreak : '\n' ∉ c) :
    Leaves (outlineOf parsers.program.rules) o (commentLine c) (some ['\n']) := by
  obtain ⟨body, hbody, rfl⟩ := eq_of_outlineOf ho
  exact Matcher.leaves_of_read_matched (reads_statement h hbody hbreak 0)

/-! ## What is claimed holds -/

section

variable {parsers : Parsers} (h : Parsers.compiled = .ok parsers) (K : Trail c b y) (H : Apart t c)
  (hslashed : slashed = decide ('/' ∈ c))

include K H

include hslashed in
theorem reads_terminal {o : Outline} {q : Stage} (hout : (trailing slashed).terminal o q = some js)
    (hq : q.meets t b y r r') :
    (∃ text, o = .literal text ∧
      Reading.Meets (Stage.meets t b y) js (readLiteral text r) (readLiteral text r')) ∨
    ∃ regex, o = .pattern regex ∧
      Reading.Meets (Stage.meets t b y) js (readPattern regex r) (readPattern regex r') := by
  dsimp only [trailing] at hout
  split at hout
  · next text => exact .inl ⟨text, rfl, literal_of_meets K H hslashed hout hq⟩
  · next e => exact .inr ⟨_, rfl, reads_of_meets K H hslashed hout hq⟩
  · cases hout

include h in
/-- Only a comment begins behind the blanks at the end of the line. -/
theorem within_of_statement {o : Outline} (ho : outlineOf parsers.program.rules 9 = some o)
    (hstart : Stage.start.meets t b y [] s)
    (hleaves : Leaves (outlineOf parsers.program.rules) o s (some s')) :
    Within (fun q => Stage.meets t b y q []) [.break_] s' := by
  obtain ⟨-, rfl⟩ := hstart
  rcases K.comment with rfl | rfl
  · -- a statement takes something
    have hsure := takes_of_slot h (by decide) ho false
    have hlt := hleaves.length_lt (fun hslot ho => (takes_of_slot h (of_decide_eq_true hslot) ho false).1)
      rfl hsure.1
    cases hlt
  · obtain rfl := Option.some.inj (hleaves.unique (leaves_statement h ho H.commentBreak))
    exact within_singleton.mpr ⟨rfl, rfl, by simp [commentLine]⟩

include h hslashed

/-- Where the line is at its end, what is claimed of the rules is borne out by the grammar, but for
statements that begin there. -/
theorem trailing_chart : (trailing slashed).chart.Valid (fun q => Stage.meets t b y q [])
    (outlineOf parsers.program.rules) := by
  refine ⟨fun {o q out cs rest} hout hcs hleaves => ?_, fun {slot q out o} hout ho => ?_⟩
  · exact Tandem.within_of_leaves (fun hjs => reads_terminal K H hslashed hjs hcs) hout hleaves
  · have hcheck := (takes_of_slot h (lt_of_chart hout) ho slashed).2 q
    rw [trailingBy, Bool.or_eq_true, Bool.and_eq_true, hout, Option.all_some] at hcheck
    rcases hcheck with hargued | ⟨hreach, -⟩
    · -- a statement that begins behind the blanks is the comment
      obtain ⟨hnine, hstart⟩ := Bool.and_eq_true_iff.mp hargued
      obtain rfl := beq_iff_eq.mp hnine
      have hq : q = .start := by
        by_contra hq
        have hinside : slashed = false ∧ q = .inside := by simpa [hq] using hstart
        rw [hinside.2] at hout
        cases hout
      subst hq
      obtain rfl := Option.some.inj hout
      exact .inr fun hs hleaves => within_of_statement h K H ho hs hleaves
    · obtain ⟨out', hout', hall⟩ := (Option.any_eq_true _ _).mp hreach
      exact .inl ⟨out', hout', fun x hx => List.contains_iff_mem.mp (List.all_eq_true.mp hall x hx)⟩

theorem trailing_sound :
    (trailing slashed).Sound (Stage.meets t b y) (b ++ y) parsers.program.rules := by
  refine ⟨trailing_chart h K H hslashed, fun {slot o} hslot ho => ?_, fun {q r r'} hended hq => ?_,
    fun {q r r'} halong hq => ?_, fun hout hq => ?_, fun hout hq => ?_⟩
  · exact (takes_of_slot h (of_decide_eq_true hslot) ho slashed).1
  · cases q with
    | inside | headed => cases hended
    | edge | start | halved | break_ | finish | beyond => exact hq.1
  · cases q with
    | inside => exact hq.2.2
    | headed => exact hq.2.1
    | edge => rw [hq.1, hq.2]; rfl
    | start | halved | break_ | finish | beyond => cases halong
  · obtain ⟨text, htext, hmeets⟩ | ⟨_, hregex, -⟩ := reads_terminal K H hslashed hout hq
    · rwa [Outline.literal.inj htext]
    · cases hregex
  · obtain ⟨_, htext, -⟩ | ⟨regex, hregex, hmeets⟩ := reads_terminal K H hslashed hout hq
    · cases htext
    · rwa [Outline.pattern.inj hregex]

end

/-! ## Groups -/

section

variable {bodies : Nat → Option Outline} {opening closing : Char} {inner : Outline}

/-- What is closed behind the line was opened in the line. -/
theorem closing_mem (hr : Stage.inside.meets t b y r r')
    (hleaves : Leaves bodies (enclosed opening closing inner) r' (some s'))
    (hs : Stage.beyond.meets t b y [] s') : closing ∈ b ++ y ∧ ∃ w, r = opening :: w := by
  obtain ⟨hne, -, rfl⟩ := hr
  obtain ⟨-, x, hx, hsplit⟩ := hs
  obtain ⟨cs, hopen, -, hleaves⟩ := course_part_iff.mp hleaves
  obtain ⟨mid, hrounds, -, hleaves⟩ := course_part_iff.mp hleaves
  obtain ⟨mid', hclose, -, hleaves⟩ := course_part_iff.mp hleaves
  obtain rfl := Option.some.inj (course_done_iff.mp hleaves)
  obtain rfl := course_literal_iff.mp hclose
  obtain ⟨text, rfl⟩ := hrounds.exists_append rfl
  have htext := course_literal_iff.mp hopen
  obtain ⟨d, w, rfl⟩ := List.exists_cons_of_ne_nil hne
  obtain ⟨front, e, rfl⟩ := (List.eq_nil_or_concat x).resolve_left hx
  refine ⟨?_, w, congrArg (· :: w) (List.cons.inj htext).1⟩
  -- the last character of what is taken behind the line is the closing one
  have hsame : (d :: w ++ front) ++ [e] = (opening :: text) ++ [closing] := by
    refine (List.append_left_inj s').mp ?_
    rw [hsplit] at htext
    simpa using htext
  obtain ⟨-, he⟩ := List.append_inj' hsame rfl
  rw [hsplit, ← List.singleton_inj.mp he]
  simp

/-- A group that is opened in the line and closed behind it has been closed before. -/
theorem not_closed_beyond (B : TypeRules bodies) (K : Trail c b y) (H : Apart t c)
    (hpair : (opening, closing) ∈ bracketPairs) (hr : Stage.inside.meets t b y r r')
    (hnone : Leaves bodies (enclosed opening closing innerOutline) r none)
    (hleaves : Leaves bodies (enclosed opening closing innerOutline) r' (some s')) :
    ¬ Stage.beyond.meets t b y [] s' := by
  intro hs
  obtain ⟨hmem, w, rfl⟩ := closing_mem hr hleaves hs
  obtain ⟨front, ht⟩ := hr.2.1
  have hplain : ∀ pair ∈ bracketPairs, pair.2 ∉ [' ', '\t', '/', '\n'] ∧ pair.2 ∈ [')', ']', '}'] := by decide
  obtain ⟨hmark, hclosing⟩ := hplain _ hpair
  obtain ⟨x, back, rfl, hx⟩ := H.closed _ hpair (K.mem_comment hmem hmark) front w ht.symm
  have hsome : Leaves bodies (enclosed opening closing innerOutline) (opening :: (x ++ closing :: back))
      (some back) :=
    .part (course_literal_iff.mpr rfl) trivial (.part (B.rounds_of_balanced hx hclosing back) trivial
      (.part (course_literal_iff.mpr rfl) trivial .done))
  cases hnone.unique hsome

/-- The same for angle brackets. -/
theorem not_closed_angle (K : Trail c b y) (H : Apart t c) (hr : Stage.inside.meets t b y r r')
    (hleaves : Leaves bodies (enclosed '<' '>' inner) r' (some s')) : ¬ Stage.beyond.meets t b y [] s' := by
  intro hs
  obtain ⟨hmem, w, rfl⟩ := closing_mem hr hleaves hs
  exact H.angles (hr.2.1.mem List.mem_cons_self) (K.mem_comment hmem (by decide))

/-- The line does not end with the parentheses behind a word to which they belong. -/
theorem not_headed_end (B : TypeRules bodies) (H : Apart t c) (hr : Stage.headed.meets t b y r r') :
    ¬ Leaves bodies (enclosed '(' ')' innerOutline) r (some []) := by
  intro hleaves
  obtain ⟨w, rfl⟩ := exists_of_enclosed hleaves
  obtain ⟨opening, closing, x, hpair, hx, hsame⟩ :=
    B.exists_balanced (B.group_of_enclosed (by decide) hleaves)
  obtain ⟨rfl, rfl⟩ := List.cons.inj hsame
  have hclosing : ∀ pair ∈ bracketPairs, pair.1 = '(' → pair.2 = ')' := by decide
  obtain rfl := hclosing _ hpair rfl
  obtain ⟨-, -, word, hword, front, blanks, hblanks, ht⟩ := hr
  exact H.headed word hword front blanks x hblanks ht hx

end

section

variable {parsers : Parsers} (h : Parsers.compiled = .ok parsers) (K : Trail c b y) (H : Apart t c)
  {slot n : Nat} {body : Matcher}

include h K H

/-- A group that is not closed in the line is not closed behind it. -/
theorem not_beyond {v' : Value} (hbody : (parsers.program.rules[slot]?).join = some body)
    (hslot : slot ∈ [0, 1, 2, 4]) (hr : Stage.inside.meets t b y r r')
    (hv : body.read parsers.program.rules n r = .failed)
    (hv' : body.read parsers.program.rules n r' = .matched v' s') : ¬ Stage.beyond.meets t b y [] s' := by
  have B := (Parsers.outlined h).types
  have hnone {o : Outline} (ho : outlineOf parsers.program.rules slot = some o) :
      Leaves (outlineOf parsers.program.rules) o r none :=
    leaves_of_body (n := n) hbody ho (by rw [hv]; rfl)
  have hsome {o : Outline} (ho : outlineOf parsers.program.rules slot = some o) :
      Leaves (outlineOf parsers.program.rules) o r' (some s') :=
    leaves_of_body (n := n) hbody ho (by rw [hv']; rfl)
  simp only [List.mem_cons, List.not_mem_nil, or_false] at hslot
  rcases hslot with rfl | rfl | rfl | rfl
  · exact not_closed_beyond B K H (by decide) hr (hnone B.parens) (hsome B.parens)
  · exact not_closed_beyond B K H (by decide) hr (hnone B.brackets) (hsome B.brackets)
  · exact not_closed_beyond B K H (by decide) hr (hnone B.braces) (hsome B.braces)
  · exact not_closed_angle K H hr (hsome B.angles)

/-- What is claimed of the rules that need no other argument. -/
theorem reads_rule (hargued : isArgued slashed slot q = false) (hout : ruleJoints slashed slot q = some js)
    (hbody : (parsers.program.rules[slot]?).join = some body)
    (hcovers : (trailing slashed).Covers (Stage.meets t b y) parsers.program.rules n body)
    (hq : q.meets t b y r r') : Reading.Meets (Stage.meets t b y) js (body.read parsers.program.rules n r)
      (body.read parsers.program.rules n r') := by
  have B := (Parsers.outlined h).types
  have ho : outlineOf parsers.program.rules slot = some body.outline := by rw [outlineOf, hbody, Option.map_some]
  have hcheck := (takes_of_slot h (lt_of_ruleJoints hout) ho slashed).2 q
  rw [trailingBy, hargued, Bool.false_or, Bool.and_eq_true] at hcheck
  have hrule : (trailing slashed).rule slot q = some js := hout
  rw [hrule, Option.all_some] at hcheck
  obtain ⟨js', hjs', hall⟩ := (Option.any_eq_true _ _).mp hcheck.2
  have hmeets := (hcovers.2 hjs' hq).mono fun j hj => List.contains_iff_mem.mp (List.all_eq_true.mp hall j hj)
  refine hmeets.of_append (fun {j v s v' s'} hj hv hv' hholds => ?_) (fun {z v' s'} hz hv hv' hs => ?_)
  · cases q with
    | inside =>
      obtain ⟨-, hj⟩ := (List.mem_ite_nil_right ..).mp hj
      obtain rfl := List.mem_singleton.mp hj
      exact hholds
    | headed =>
      rw [spareJoints, List.mem_ite_nil_right] at hj
      obtain ⟨rfl, hj⟩ := hj
      simp only [List.mem_cons, List.not_mem_nil, or_false] at hj
      rcases hj with rfl | rfl
      · obtain ⟨-, rfl, -⟩ := hholds
        exact not_headed_end B H hq (leaves_of_body (n := n) hbody B.parens (by rw [hv]; rfl))
      · exact hholds
    | _ => cases hj
  · cases q with
    | inside =>
      obtain ⟨hslot, hz⟩ := (List.mem_ite_nil_right ..).mp hz
      obtain rfl := Joint.alone.inj (List.mem_singleton.mp hz)
      exact not_beyond h K H hbody hslot hq hv hv' hs
    | headed =>
      rw [spareJoints, List.mem_ite_nil_right] at hz
      obtain ⟨rfl, hz⟩ := hz
      obtain rfl : z = .beyond := by simpa using hz
      exact not_beyond h K H hbody (by decide) (Stage.headed.inside hq) hv hv' hs
    | _ => cases hz

/-- Behind the blanks at the end of the line, the comment is a statement by itself. -/
theorem reads_rule_start (hbody : (parsers.program.rules[9]?).join = some body)
    (hq : Stage.start.meets t b y r r') : Reading.Meets (Stage.meets t b y) [.alone .break_]
      (body.read parsers.program.rules n r) (body.read parsers.program.rules n r') := by
  obtain ⟨rfl, rfl⟩ := hq
  have ho : outlineOf parsers.program.rules 9 = some body.outline := by rw [outlineOf, hbody, Option.map_some]
  have S := trailing_sound h K H rfl
  have hnil {v : Value} {s : List Char} : body.read parsers.program.rules n [] ≠ .matched v s :=
    S.not_matched (takes_of_slot h (by decide) ho _).1
  rcases K.comment with rfl | rfl
  · cases hread : body.read parsers.program.rules n [] with
    | matched v s => exact absurd hread hnil
    | failed => exact .failed
    | fatal => exact .fatal
  · rw [reads_statement h hbody H.commentBreak]
    cases hread : body.read parsers.program.rules n [] with
    | matched v s => exact absurd hread hnil
    | failed => exact .alone ⟨.break_, List.mem_singleton_self _, rfl, rfl, by simp [commentLine]⟩
    | fatal => exact .fatal

end

end Typestrip.TypeScript
