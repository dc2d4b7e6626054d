import Typestrip.Proofs.Grammar.Memoization

/-!
# Matching by texts alone

Where nothing is remembered, positions only count what has been passed, and causes only tell what went
wrong. `Matcher.read` is matching without all of this: it looks at a text and gives the value and what
is left over. With the same number of entries left it has the outcome of matching
(`Matcher.describes_plain`), so that what the nodes of a grammar match can be found out text by text.
-/

namespace Typestrip.Grammar

/-- What comes of matching something at the beginning of a text. -/
inductive Reading (α : Type) where
  | matched (x : α) (rest : List Char)
  | failed
  /-- Nothing else is tried. -/
  | fatal

/-- Matching something at the beginning of a text. -/
abbrev Reader := List Char → Reading Value

/-- What a node makes of the reading of its parts. -/
def Attributes.settle {α : Type} (a : Attributes) (cs : List Char)
    (f : α → List Char → Value) : Reading α → Reading Value
  | .matched x rest => .matched (a.reshaped (f x rest)) rest
  | .failed => if a.nullable then .matched .null cs else .failed
  | .fatal => .fatal

/-- Matches a text. -/
def readLiteral (text cs : List Char) : Reading Unit :=
  match stripPrefix? text cs with
  | some rest => .matched () rest
  | none => .failed

/-- Matches a regular expression. -/
def readPattern (regex : Regex.Expr) (cs : List Char) : Reading (List Char) :=
  match regex.search? cs with
  | some n => .matched (cs.take n) (cs.drop n)
  | none => .failed

/-- Matches the same thing over and over, until it fails or takes nothing. -/
def readRounds (step : Reader) (items : List Value) (cs : List Char) : Reading (List Value) :=
  match step cs with
  | .matched v rest =>
    if rest.length < cs.length then readRounds step (v :: items) rest
    else .matched items.reverse cs
  | .failed => .matched items.reverse cs
  | .fatal => .fatal
termination_by cs.length

mutual
/-- Matches a compiled node. `enter` matches the body of a rule. -/
def Matcher.reads (rules : Rules) (enter : Matcher → Reader) : Matcher → Reader
  | .literal a text _, cs =>
    a.settle cs (fun _ _ => .text (String.ofList text)) (readLiteral text cs)
  | .pattern a regex _, cs =>
    a.settle cs (fun matched _ => .text (String.ofList matched)) (readPattern regex cs)
  | .sequence a ms, cs =>
    a.settle cs (fun kept rest => sequenceValue ms cs kept (Text.width cs - Text.width rest))
      (Matcher.readsAll rules enter ms [] cs)
  | .choice a ms, cs => a.settle cs (fun v _ => v) (Matcher.readsFirst rules enter ms cs)
  | .repetition a m, cs =>
    a.settle cs (fun items _ => .list items) (readRounds (Matcher.reads rules enter m) [] cs)
  | .rule a _ slot, cs =>
    match slot.bind fun i => (rules[i]?).join with
    | none => .fatal
    | some body => a.settle cs (fun v _ => v) (enter body cs)

/-- Matches the parts of a sequence one after the other. -/
def Matcher.readsAll (rules : Rules) (enter : Matcher → Reader) :
    List Matcher → List (String × Value) → List Char → Reading (List (String × Value))
  | [], fields, cs => .matched fields cs
  | m :: ms, fields, cs =>
    match Matcher.reads rules enter m cs with
    | .matched v rest => Matcher.readsAll rules enter ms (keep m.attributes v fields) rest
    | .failed => .failed
    | .fatal => .fatal

/-- Matches the first of the alternatives that matches. -/
def Matcher.readsFirst (rules : Rules) (enter : Matcher → Reader) : List Matcher → Reader
  | [], _ => .failed
  | m :: ms, cs =>
    match Matcher.reads rules enter m cs with
    | .matched v rest => .matched v rest
    | .failed => Matcher.readsFirst rules enter ms cs
    | .fatal => .fatal
end

/-- Matches the body of a rule where some entries are left. -/
def entered (rules : Rules) : (left : Nat) → Matcher → Reader
  | 0, _, _ => .fatal
  | left + 1, body, cs => body.reads rules (entered rules left) cs

/-- Matches a node where some entries are left. -/
def Matcher.read (rules : Rules) (left : Nat) (m : Matcher) : Reader :=
  m.reads rules (entered rules left)

/-! ## Outcomes -/

/-- A reading tells what came of parts that began at an offset of the input. -/
inductive Reading.Describes {α : Type} (cs : List Char) (pos : Nat) :
    Reading α → Except ParseError (α × Nat) → Prop
  | matched {x text rest} : cs = text ++ rest →
      Describes cs pos (.matched x rest) (.ok (x, pos + Text.width text))
  | failed {e} : e.isFatal = false → Describes cs pos .failed (.error e)
  | fatal {e} : e.isFatal = true → Describes cs pos .fatal (.error e)

/-- A reading tells what came of matching a node. -/
inductive Reading.DescribesMatch (cs : List Char) : Reading Value → Outcome → Prop
  | matched {v text rest} : cs = text ++ rest →
      DescribesMatch cs (.matched v rest) (.ok ⟨v, Text.width text⟩)
  | failed {e} : e.isFatal = false → DescribesMatch cs .failed (.error e)
  | fatal {e} : e.isFatal = true → DescribesMatch cs .fatal (.error e)

theorem Reading.Describes.nothing {α : Type} (x : α) (cs : List Char) (pos : Nat) :
    Reading.Describes cs pos (.matched x cs) (.ok (x, pos)) :=
  @Reading.Describes.matched α cs pos x [] cs rfl

theorem Reading.DescribesMatch.nothing (v : Value) (cs : List Char) :
    Reading.DescribesMatch cs (.matched v cs) (.ok ⟨v, 0⟩) :=
  @Reading.DescribesMatch.matched cs v [] cs rfl

/-- What a node makes of a failure that is not fatal. -/
theorem Attributes.describes_failed {α : Type} (a : Attributes) {cs : List Char} {e : ParseError}
    (he : e.isFatal = false) (f : α → List Char → Value) :
    (a.settle cs f .failed).DescribesMatch cs (a.recover (.error e)) := by
  rw [settle, recover, he, Bool.not_false, Bool.and_true]
  split
  · exact .nothing _ cs
  · exact .failed he

/-- Matching without a memo does what the reader tells. -/
def Reader.Tells (r : Reader) (recognizer : Recognizer) : Prop :=
  ∀ pos cs, ∃ o, recognizer pos cs .off = (o, .off) ∧ (r cs).DescribesMatch cs o

/-- A node makes the same of its parts in both ways. -/
theorem Reading.Describes.finish {α : Type} {cs : List Char} {pos : Nat} {r : Reading α}
    {o : Except ParseError (α × Nat)} (h : r.Describes cs pos o) (a : Attributes)
    {f : α × Nat → Value} {g : α → List Char → Value}
    (hfg : ∀ x text rest, cs = text ++ rest → f (x, pos + Text.width text) = g x rest) :
    ∃ o', a.finish (fun x => ⟨a.reshaped (f x), x.2 - pos⟩) (o, .off) = (o', .off) ∧
      (a.settle cs g r).DescribesMatch cs o' := by
  cases h with
  | @matched x text rest hcs =>
    refine ⟨_, rfl, ?_⟩
    dsimp only
    rw [hfg x text rest hcs, Nat.add_sub_cancel_left]
    exact .matched hcs
  | @failed e he =>
    exact ⟨_, rfl, a.describes_failed he _⟩
  | @fatal e he =>
    refine ⟨_, rfl, ?_⟩
    rw [a.recover_of_isFatal he]
    exact .fatal he

theorem memoized_off {r : Recognizer} {pos : Nat} {cs : List Char} {o : Outcome} (id : NodeId)
    (h : r pos cs .off = (o, .off)) : memoized id r pos cs .off = (o, .off) := by
  rw [memoized_of_not_knows (Memo.knows_empty false id pos), Memo.find_off, h, Memo.insert_off]

variable {rules : Rules} {e : Matcher → Recognizer} {enter : Matcher → Reader}

theorem describes_evaluateAll {ms : List Matcher}
    (h : ∀ m ∈ ms, (m.reads rules enter).Tells (m.evaluate rules e))
    (fields : List (String × Value)) (pos : Nat) (cs : List Char) :
    ∃ o, Matcher.evaluateAll rules e ms fields pos cs .off = (o, .off) ∧
      (Matcher.readsAll rules enter ms fields cs).Describes cs pos o := by
  induction ms generalizing fields pos cs with
  | nil => exact ⟨_, rfl, .nothing fields cs pos⟩
  | cons m ms ih =>
    obtain ⟨o, ho, hm⟩ := h m List.mem_cons_self pos cs
    rw [Matcher.evaluateAll, Matcher.readsAll, memoized_off _ ho]
    revert hm
    generalize m.reads rules enter cs = r
    intro hm
    cases hm with
    | @matched v text rest hcs =>
      obtain ⟨o, ho, hms⟩ := ih (fun m hm => h m (List.mem_cons_of_mem _ hm))
        (keep m.attributes v fields) (pos + Text.width text) rest
      have hdrop : Text.dropBytes cs (Text.width text) = rest := by rw [hcs, Text.dropBytes_width]
      refine ⟨o, by rw [← ho, ← hdrop], ?_⟩
      dsimp only
      revert hms
      generalize Matcher.readsAll rules enter ms _ rest = r
      intro hms
      cases hms with
      | @matched x text' rest' hrest =>
        rw [Nat.add_assoc, ← Text.width_append]
        exact .matched (by rw [hcs, hrest, List.append_assoc])
      | failed he => exact .failed he
      | fatal he => exact .fatal he
    | @failed cause he =>
      refine ⟨_, rfl, ?_⟩
      rw [if_neg (by simp [he])]
      exact .failed rfl
    | @fatal cause he =>
      refine ⟨_, rfl, ?_⟩
      rw [if_pos he]
      exact .fatal he

theorem describes_evaluateFirst {ms : List Matcher}
    (h : ∀ m ∈ ms, (m.reads rules enter).Tells (m.evaluate rules e)) (failures : List ParseError)
    (pos : Nat) (cs : List Char) :
    ∃ o, Matcher.evaluateFirst rules e ms failures pos cs .off = (o, .off) ∧
      (Matcher.readsFirst rules enter ms cs).DescribesMatch cs o := by
  induction ms generalizing failures with
  | nil => exact ⟨_, rfl, .failed rfl⟩
  | cons m ms ih =>
    obtain ⟨o, ho, hm⟩ := h m List.mem_cons_self pos cs
    rw [Matcher.evaluateFirst, Matcher.readsFirst, memoized_off _ ho]
    revert hm
    generalize m.reads rules enter cs = r
    intro hm
    cases hm with
    | matched hcs => exact ⟨_, rfl, .matched hcs⟩
    | @failed cause he =>
      dsimp only
      rw [if_neg (by simp [he])]
      exact ih (fun m hm => h m (List.mem_cons_of_mem _ hm)) _
    | @fatal cause he =>
      dsimp only
      rw [if_pos he]
      exact ⟨_, rfl, .fatal he⟩

/-- A text of some bytes has some characters. -/
theorem width_eq_zero_iff {cs : List Char} : Text.width cs = 0 ↔ cs = [] := by
  cases cs with
  | nil => simp
  | cons c cs =>
    have := Text.utf8Size_ne_zero c
    simp only [Text.width_cons, reduceCtorEq, iff_false]
    omega

theorem describes_iterate {r : Reader} {recognizer : Recognizer} (h : r.Tells recognizer)
    (items : List Value) (pos : Nat) (cs : List Char) :
    ∃ o, iterate recognizer items pos cs .off = (o, .off) ∧
      (readRounds r items cs).Describes cs pos o := by
  obtain ⟨o, ho, hm⟩ := h pos cs
  have hstop : (Reading.matched items.reverse cs).Describes cs pos (.ok (items.reverse, pos)) :=
    .nothing _ cs pos
  rw [iterate, readRounds, ho]
  revert hm
  cases hr : r cs with
  | matched v rest =>
    intro hm
    cases hm with
    | @matched _ text _ hcs =>
      dsimp only
      cases hw : Text.width text with
      | zero =>
        obtain rfl := width_eq_zero_iff.mp hw
        rw [if_neg (by simp [hcs])]
        exact ⟨_, rfl, hstop⟩
      | succ n =>
        have hlt : rest.length < cs.length := by
          have htext : text ≠ [] := fun h => by simp [h] at hw
          have := List.length_pos_iff.mpr htext
          rw [hcs, List.length_append]
          omega
        obtain ⟨o, hnext, hrounds⟩ := describes_iterate h (v :: items) (pos + (n + 1)) rest
        have hdrop : Text.dropBytes cs (n + 1) = rest := by rw [hcs, ← hw, Text.dropBytes_width]
        rw [if_pos hlt]
        cases cs with
        | nil => cases hlt
        | cons c cs =>
          refine ⟨o, by rw [← hnext, ← hdrop], ?_⟩
          revert hrounds
          generalize readRounds r (v :: items) rest = reading
          intro hrounds
          cases hrounds with
          | @matched x text' rest' hrest =>
            rw [← hw, Nat.add_assoc, ← Text.width_append]
            exact .matched (by rw [hcs, hrest, List.append_assoc])
          | failed he => exact .failed he
          | fatal he => exact .fatal he
  | failed =>
    intro hm
    cases hm with
    | @failed cause he =>
      dsimp only
      rw [if_neg (by simp [he])]
      exact ⟨_, rfl, hstop⟩
  | fatal =>
    intro hm
    cases hm with
    | @fatal cause he =>
      dsimp only
      rw [if_pos he]
      exact ⟨_, rfl, .fatal he⟩
termination_by cs.length

theorem tells_run {m : Matcher} (h : (m.reads rules enter).Tells (m.evaluate rules e)) :
    (m.reads rules enter).Tells (m.run rules e) := by
  intro pos cs
  obtain ⟨o, ho, hm⟩ := h pos cs
  refine ⟨o, ?_, hm⟩
  unfold Matcher.run
  split
  · exact memoized_off _ ho
  · exact ho

theorem tells_literal (a : Attributes) (text : List Char) (expected : String) :
    (Matcher.reads rules enter (.literal a text expected)).Tells
      (Matcher.evaluate rules e (.literal a text expected)) := by
  intro pos cs
  rw [Matcher.evaluate_literal, Matcher.reads, matchLiteral, readLiteral]
  refine ⟨_, rfl, ?_⟩
  cases hs : stripPrefix? text cs with
  | some rest => exact .matched (stripPrefix?_eq_some_iff.mp hs)
  | none => exact a.describes_failed rfl _

theorem tells_pattern (a : Attributes) (regex : Regex.Expr) (expected : String) :
    (Matcher.reads rules enter (.pattern a regex expected)).Tells
      (Matcher.evaluate rules e (.pattern a regex expected)) := by
  intro pos cs
  rw [Matcher.evaluate_pattern, Matcher.reads, matchPattern, readPattern]
  refine ⟨_, rfl, ?_⟩
  cases regex.search? cs with
  | some n => exact .matched (List.take_append_drop n cs).symm
  | none => exact a.describes_failed rfl _

/-- What a node makes of a match of another one. -/
theorem Reading.DescribesMatch.finish {cs : List Char} {r : Reading Value} {o : Outcome}
    (h : r.DescribesMatch cs o) (a : Attributes) :
    ∃ o', a.finish (fun s => ⟨a.reshaped s.value, s.consumed⟩) (o, .off) = (o', .off) ∧
      (a.settle cs (fun v _ => v) r).DescribesMatch cs o' := by
  cases h with
  | matched hcs => exact ⟨_, rfl, .matched hcs⟩
  | @failed cause he =>
    exact ⟨_, rfl, a.describes_failed he _⟩
  | @fatal cause he =>
    refine ⟨_, rfl, ?_⟩
    rw [a.recover_of_isFatal he]
    exact .fatal he

theorem tells_evaluate (h : ∀ {body}, IsBody rules body → (enter body).Tells (e body))
    (m : Matcher) : (m.reads rules enter).Tells (m.evaluate rules e) := by
  induction m using Matcher.treeInduction with
  | step m ih =>
    cases m with
    | literal a text expected => exact tells_literal a text expected
    | pattern a regex expected => exact tells_pattern a regex expected
    | sequence a ms =>
      intro pos cs
      have hparts : ∀ m ∈ ms, (m.reads rules enter).Tells (m.evaluate rules e) := ih
      obtain ⟨o, ho, hms⟩ := describes_evaluateAll hparts [] pos cs
      rw [Matcher.evaluate_sequence, Matcher.reads, ho]
      refine hms.finish a fun kept text rest hcs => ?_
      dsimp only
      rw [hcs, Text.width_append, Nat.add_sub_cancel_left, Nat.add_sub_cancel_right]
    | choice a ms =>
      intro pos cs
      have hparts : ∀ m ∈ ms, (m.reads rules enter).Tells (m.evaluate rules e) := ih
      obtain ⟨o, ho, hms⟩ := describes_evaluateFirst hparts [] pos cs
      rw [Matcher.evaluate_choice, Matcher.reads, ho]
      exact hms.finish a
    | repetition a m =>
      intro pos cs
      obtain ⟨o, ho, hrounds⟩ :=
        describes_iterate (tells_run (ih m (List.mem_singleton_self m))) [] pos cs
      rw [Matcher.evaluate_repetition, Matcher.reads, ho]
      exact hrounds.finish a fun _ _ _ _ => rfl
    | rule a name slot =>
      intro pos cs
      cases hbody : slot.bind fun i => (rules[i]?).join with
      | none =>
        rw [Matcher.evaluate_rule_none _ _ _ _ _ _ _ hbody, Matcher.reads, hbody]
        exact ⟨_, rfl, .fatal rfl⟩
      | some body =>
        obtain ⟨o, ho, hm⟩ := h (isBody_of_slot hbody) pos cs
        rw [Matcher.evaluate_rule _ _ _ _ _ _ _ hbody, Matcher.reads, hbody, ho]
        exact hm.finish a

/-- Reading the body of a rule tells what comes of matching it. -/
theorem tells_enter (rules : Rules) (limit left : Nat) (body : Matcher) :
    (entered rules left body).Tells (Grammar.enter rules limit left body) := by
  induction left generalizing body with
  | zero => exact fun pos cs => ⟨_, rfl, .fatal rfl⟩
  | succ left ih => exact tells_run (tells_evaluate (fun _ => ih _) body)

/-- Reading a text tells what comes of matching, wherever the text stands. -/
theorem Matcher.describes_plain (rules : Rules) (limit left : Nat) (m : Matcher) (pos : Nat)
    (cs : List Char) : (m.read rules left cs).DescribesMatch cs (m.plain rules limit left pos cs) := by
  obtain ⟨o, ho, hm⟩ := tells_evaluate (fun _ => tells_enter rules limit left _) m pos cs
  rw [plain, ho]
  exact hm

/-! ## From outcomes to readings and back -/

variable {limit left left' : Nat} {m : Matcher} {pos : Nat} {cs rest : List Char}

theorem Matcher.read_of_plain_ok {s : Success} (h : m.plain rules limit left pos cs = .ok s) :
    ∃ text rest, cs = text ++ rest ∧ s.consumed = Text.width text ∧
      m.read rules left cs = .matched s.value rest := by
  have hm := m.describes_plain rules limit left pos cs
  rw [h] at hm
  generalize m.read rules left cs = r at hm ⊢
  cases hm with
  | matched hcs => exact ⟨_, _, hcs, rfl, rfl⟩

theorem Matcher.plain_of_read_matched {v : Value} (h : m.read rules left cs = .matched v rest)
    (limit pos : Nat) : ∃ text, cs = text ++ rest ∧
      m.plain rules limit left pos cs = .ok ⟨v, Text.width text⟩ := by
  have hm := m.describes_plain rules limit left pos cs
  rw [h] at hm
  generalize m.plain rules limit left pos cs = o at hm
  cases hm with
  | matched hcs => exact ⟨_, hcs, rfl⟩

theorem Matcher.plain_of_read_failed (h : m.read rules left cs = .failed) (limit pos : Nat) :
    ∃ e, m.plain rules limit left pos cs = .error e ∧ e.isFatal = false := by
  have hm := m.describes_plain rules limit left pos cs
  rw [h] at hm
  generalize m.plain rules limit left pos cs = o at hm
  cases hm with
  | failed he => exact ⟨_, rfl, he⟩

theorem Matcher.read_of_plain_error {e : ParseError}
    (h : m.plain rules limit left pos cs = .error e) (he : e.isFatal = false) :
    m.read rules left cs = .failed := by
  have hm := m.describes_plain rules limit left pos cs
  rw [h] at hm
  generalize m.read rules left cs = r at hm ⊢
  cases hm with
  | failed => rfl
  | fatal hfatal => exact absurd (he.symm.trans hfatal) Bool.false_ne_true

/-- What is left over is the end of the text. -/
theorem Matcher.exists_of_read {v : Value} (h : m.read rules left cs = .matched v rest) :
    ∃ text, cs = text ++ rest := by
  obtain ⟨text, hcs, -⟩ := plain_of_read_matched h 0 0
  exact ⟨text, hcs⟩

/-- More entries change nothing about a match. -/
theorem Matcher.read_mono {v : Value} (h : m.read rules left cs = .matched v rest)
    (hle : left ≤ left') : m.read rules left' cs = .matched v rest := by
  obtain ⟨text, hcs, hplain⟩ := plain_of_read_matched h 0 0
  have hset : Outcome.Settled (m.plain rules 0 left 0 cs) := hplain ▸ .ok _
  have hmono := plain_mono (Text.fromBoundary?_zero cs) hle hset
  obtain ⟨text', rest', hcs', hw, hread⟩ := read_of_plain_ok (hmono.trans hplain)
  have hrest : rest' = rest := by
    rw [← Text.dropBytes_width text rest, ← Text.dropBytes_width text' rest', ← hcs, ← hcs', ← hw]
  rw [hread, hrest]

/-- More entries change nothing about a failure. -/
theorem Matcher.read_mono_failed (h : m.read rules left cs = .failed) (hle : left ≤ left') :
    m.read rules left' cs = .failed := by
  obtain ⟨e, hplain, he⟩ := plain_of_read_failed h 0 0
  have hset : Outcome.Settled (m.plain rules 0 left 0 cs) := hplain ▸ .not_fatal he
  have hmono := plain_mono (Text.fromBoundary?_zero cs) hle hset
  exact read_of_plain_error (hmono.trans hplain) he

end Typestrip.Grammar
