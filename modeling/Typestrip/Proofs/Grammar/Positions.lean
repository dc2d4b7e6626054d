import Typestrip.Proofs.Grammar.Fatal

/-!
# Where matches end and failures lie

All offsets that come up in a parse are character boundaries of the input. So whatever is cut out of
the input in its course can be cut out: `Frame.Cuts` lists these cuts, and `Text.slice?` is the cut
that fails unless both ends are boundaries in order. Failures lie between where matching began and
the end of the input, and further on the deeper they stand in the tree of a failure.

Main statement: `Parser.parse_located`.
-/

namespace Typestrip.Regex

/-! ## Where an expression finds an end -/

theorem betterOf_le {accepted : Bool} {count bound n : Nat} {best : Option Nat}
    (hbest : ∀ b, best = some b → b ≤ bound) (hcount : count ≤ bound)
    (h : betterOf accepted count best = some n) : n ≤ bound := by
  rw [betterOf] at h
  split at h
  · rw [← Option.some.inj h]
    exact hcount
  · exact hbest n h

theorem run_le {threads : List Thread} {count : Nat} {best : Option Nat} {cs : List Char} {n : Nat}
    (hbest : ∀ b, best = some b → b ≤ count) (h : run threads count best cs = some n) :
    n ≤ count + cs.length := by
  have hbetter {accepted : Bool} {m : Nat} (hm : betterOf accepted count best = some m) :
      m ≤ count := betterOf_le hbest (Nat.le_refl count) hm
  induction cs generalizing threads count best with
  | nil =>
    rw [run] at h
    exact hbetter h
  | cons c cs ih =>
    rw [run] at h
    dsimp only at h
    split at h
    · exact Nat.le_trans (hbetter h) (Nat.le_add_right _ _)
    · have hnext : ∀ b, betterOf (untilAccept (distinct threads)).2 count best = some b →
          b ≤ count + 1 := fun b hb => Nat.le_succ_of_le (hbetter hb)
      have hn := ih hnext h fun hm => betterOf_le hnext (Nat.le_refl _) hm
      rw [List.length_cons]
      omega

theorem Expr.match?_le {e : Expr} {before : Option Char} {cs : List Char} {n : Nat}
    (h : e.match? before cs = some n) : n ≤ cs.length := by
  have hn := run_le (by simp) h
  rwa [Nat.zero_add] at hn

theorem Expr.searchFrom_le {e : Expr} {before : Option Char} {count : Nat} {cs : List Char}
    {n : Nat} (h : e.searchFrom before count cs = some n) : n ≤ count + cs.length := by
  induction cs generalizing before count with
  | nil =>
    rw [searchFrom] at h
    obtain ⟨k, hk, rfl⟩ := Option.map_eq_some_iff.mp h
    exact Nat.add_le_add_left (match?_le hk) count
  | cons c cs ih =>
    rw [searchFrom] at h
    split at h
    · next k hk =>
      rw [← Option.some.inj h]
      exact Nat.add_le_add_left (match?_le hk) count
    · have hn := ih h
      rw [List.length_cons]
      omega

/-- An expression finds an end inside the text. -/
theorem Expr.search?_le {e : Expr} {cs : List Char} {n : Nat} (h : e.search? cs = some n) :
    n ≤ cs.length := by
  rw [search?] at h
  split at h
  · exact match?_le h
  · have hn := searchFrom_le h
    rwa [Nat.zero_add] at hn

end Typestrip.Regex

namespace Typestrip.Grammar

/-! ## Where a failure lies -/

/-- Everything in the tree of a failure lies in the input, from `start` on, and nothing lies before
what stands above it. -/
def ParseError.Located (input : List Char) (start : Nat) (e : ParseError) : Prop :=
  ∀ part, (part = e ∨ e.Below part) →
    (∀ pos, part.position? = some pos →
      start ≤ pos ∧ pos ≤ Text.width input ∧ Text.IsBoundary input pos) ∧
    ∀ cause ∈ part.causes, ∀ pos pos', part.position? = some pos → cause.position? = some pos' →
      pos ≤ pos'

variable {input : List Char}

theorem ParseError.located_of_causes {start : Nat} {e : ParseError}
    (hpos : ∀ pos, e.position? = some pos → pos = start ∧ Text.IsBoundary input pos)
    (hcauses : ∀ cause ∈ e.causes, cause.Located input start) : e.Located input start := by
  rintro part (rfl | hbelow)
  · refine ⟨fun pos h => ?_, fun cause hcause pos pos' h h' => ?_⟩
    · obtain ⟨rfl, hbound⟩ := hpos pos h
      exact ⟨Nat.le_refl _, hbound.le_width, hbound⟩
    · obtain ⟨rfl, -⟩ := hpos pos h
      exact ((hcauses cause hcause cause (.inl rfl)).1 pos' h').1
  · obtain ⟨cause, hcause, hpart⟩ := below_iff.mp hbelow
    exact hcauses cause hcause part (hpart.imp_left Eq.symm)

theorem ParseError.located_leaf {start : Nat} {e : ParseError} (hleaf : e.causes = [])
    (hpos : ∀ pos, e.position? = some pos → pos = start ∧ Text.IsBoundary input pos) :
    e.Located input start :=
  located_of_causes hpos (by simp [hleaf])

/-- Failures lie where matching began or further on. -/
def insideInput (input : List Char) : FailureLaw where
  input := input
  holds start e := e.Located input start
  unmatched _ hpos := ParseError.located_leaf rfl fun _ h => Option.some.inj h ▸ ⟨rfl, hpos⟩
  tooDeep _ hpos := ParseError.located_leaf rfl fun _ h => Option.some.inj h ▸ ⟨rfl, hpos⟩
  unresolved _ _ := ParseError.located_leaf rfl (by simp [ParseError.position?])
  stopped hpos he _ := ParseError.located_of_causes
    (fun _ h => Option.some.inj h ▸ ⟨rfl, hpos⟩) (List.forall_mem_singleton.mpr he)
  exhausted {pos es} hpos hes := ParseError.located_of_causes (e := .exhausted pos es)
    (fun _ h => Option.some.inj h ▸ ⟨rfl, hpos⟩) fun e he => (hes e he).1
  earlier hle h part hpart := by
    obtain ⟨hin, hcauses⟩ := h part hpart
    exact ⟨fun pos hpos => ⟨Nat.le_trans hle (hin pos hpos).1, (hin pos hpos).2⟩, hcauses⟩

/-- A match ends in the input, or a failure lies there. -/
def Outcome.Located (input : List Char) (start : Nat) : Outcome → Prop
  | .ok s =>
    start + s.consumed ≤ Text.width input ∧ Text.IsBoundary input (start + s.consumed)
  | .error e => e.Located input start

theorem Outcome.located_of_ends {start : Nat} {o : Outcome × Memo}
    (h : (insideInput input).Ends start ((insideInput input).Inside start) o) :
    Outcome.Located input start o.1 := by
  cases h with
  | aborted _ he | failed _ he _ => exact he
  | matched hs _ => exact ⟨Text.IsBoundary.le_width hs, hs⟩

/-! ## What is cut out of the input -/

variable {rules : Rules} {limit : Nat}

/-- The outcome of a frame that is about one node or rule. -/
def Frame.outcome? (rules : Rules) (limit : Nat) (x : Frame) : Option Outcome :=
  let entering := Grammar.enter rules limit x.left
  match x.task with
  | .run m => some (m.run rules entering x.pos x.rest x.memo).1
  | .ask m => some (memoized m.attributes.id (m.evaluate rules entering) x.pos x.rest x.memo).1
  | .evaluate m => some (m.evaluate rules entering x.pos x.rest x.memo).1
  | .enter slot => (rules[slot]?).join.map fun body => (entering body x.pos x.rest x.memo).1
  | .parts .. | .alternatives .. | .rounds .. => none

theorem FailureLaw.Kept.outcome_located {x : Frame} (hx : (insideInput input).Kept x) {o : Outcome}
    (h : x.outcome? rules limit = some o) : Outcome.Located input x.pos o := by
  obtain ⟨task, left, pos, rest, memo⟩ := x
  obtain ⟨hpos, hm⟩ := hx
  have hentering (n : Nat) (m : Matcher) := (insideInput input).enter_obeys rules limit n m hpos hm
  cases task with
  | run m =>
    obtain rfl := Option.some.inj h
    exact Outcome.located_of_ends (hentering (left + 1) m)
  | ask m =>
    obtain rfl := Option.some.inj h
    exact Outcome.located_of_ends ((insideInput input).ask_obeys rules limit left m hpos hm)
  | evaluate m =>
    obtain rfl := Option.some.inj h
    exact Outcome.located_of_ends ((insideInput input).node_obeys rules limit left m hpos hm)
  | enter slot =>
    obtain ⟨body, -, rfl⟩ := Option.map_eq_some_iff.mp h
    exact Outcome.located_of_ends (hentering left body)
  | parts | alternatives | rounds => cases h

/-- The offset of the end of the first `n` characters, which lies beyond the end of a text that has
fewer. -/
def offsetOf (cs : List Char) (n : Nat) : Nat := Text.width (cs.take n) + (n - cs.length)

/-- `x.Cuts rules limit input whole start stop piece`: at the moment `x` of a parse of `input`, the
text `whole` is cut at `start` and `stop`, and `piece` is made use of. A terminal looks at what is
left of the input, a regular expression yields the beginning of that up to where it found an end,
and a sequence whose parts have no names yields what they matched. -/
inductive Frame.Cuts (rules : Rules) (limit : Nat) (input : List Char) :
    Frame → List Char → Nat → Nat → List Char → Prop
  | literal {a text expected left pos rest memo} :
      Cuts rules limit input ⟨.evaluate (.literal a text expected), left, pos, rest, memo⟩
        input pos (Text.width input) rest
  | pattern {a regex expected left pos rest memo} :
      Cuts rules limit input ⟨.evaluate (.pattern a regex expected), left, pos, rest, memo⟩
        input pos (Text.width input) rest
  | found {a regex expected left pos rest memo n} : regex.search? rest = some n →
      Cuts rules limit input ⟨.evaluate (.pattern a regex expected), left, pos, rest, memo⟩
        rest 0 (offsetOf rest n) (rest.take n)
  | sequence {a ms left pos rest memo kept stop memo'} :
      Matcher.evaluateAll rules (enter rules limit left) ms [] pos rest memo =
        (.ok (kept, stop), memo') →
      ms.any (·.attributes.capture.isSome) = false →
      Cuts rules limit input ⟨.evaluate (.sequence a ms), left, pos, rest, memo⟩
        input pos stop (Text.takeBytes rest (stop - pos))

theorem slice?_offsetOf {cs : List Char} {n : Nat} (h : n ≤ cs.length) :
    Text.slice? cs 0 (offsetOf cs n) = some (cs.take n) := by
  have hend : offsetOf cs n = Text.width (cs.take n) := by
    rw [offsetOf, Nat.sub_eq_zero_of_le h, Nat.add_zero]
  have hcut : cs = cs.take n ++ cs.drop n := (List.take_append_drop n cs).symm
  have hpiece : Text.takeBytes cs (Text.width (cs.take n)) = cs.take n := by
    have htake := Text.takeBytes_width (cs.take n) (cs.drop n)
    rwa [← hcut] at htake
  rw [hend, Text.slice?_of_isBoundary (Text.fromBoundary?_zero cs) (Nat.zero_le _)
    ⟨_, _, hcut, rfl⟩, Nat.sub_zero, hpiece]

theorem FailureLaw.Kept.slice?_eq {L : FailureLaw} {x : Frame} (hx : L.Kept x)
    {whole piece : List Char} {start stop : Nat}
    (h : x.Cuts rules limit L.input whole start stop piece) :
    Text.slice? whole start stop = some piece := by
  obtain ⟨hpos, hm⟩ := hx
  cases h with
  | literal | pattern => exact Text.slice?_width hpos
  | found hn => exact slice?_offsetOf (Regex.Expr.search?_le hn)
  | @sequence a ms left pos rest memo kept stop memo' hparts _ =>
    dsimp only at hpos hm
    have hends : L.Ends start (L.StopsInside start)
        (Matcher.evaluateAll rules (enter rules limit left) ms [] start rest memo) :=
      evaluateAll_ends (fun m _ => L.node_obeys rules limit left m) [] hpos hm
    rw [hparts] at hends
    exact Text.slice?_of_isBoundary hpos hends.good.1 hends.good.2

/-! ## Whole parses -/

/-- In the course of a parse everything that is cut out of the input is cut at character boundaries
in order, matches end at such boundaries inside the input, and failures lie at such boundaries, from
where matching began on and not before the failures above them. -/
theorem Parser.parse_located (p : Parser) (options : Options) (input : List Char) :
    (∀ x, p.Reaches options input x →
      (∀ whole start stop piece,
        x.Cuts p.rules options.maxDepth input whole start stop piece →
          Text.slice? whole start stop = some piece) ∧
      ∀ o, x.outcome? p.rules options.maxDepth = some o → Outcome.Located input x.pos o) ∧
    Outcome.Located input 0 (p.parse options input) := by
  have hstart := (insideInput input).start_kept p options rfl
  refine ⟨fun x hreach => ?_, ?_⟩
  · have hx := hstart.reached hreach
    exact ⟨fun whole start stop piece h => hx.slice?_eq h, fun o h => hx.outcome_located h⟩
  · have hroot : Outcome.Located input 0
        (p.matchAt options.maxDepth 0 input (.empty options.memoize)).1 :=
      hstart.outcome_located rfl
    rw [p.parse_eq]
    revert hroot
    rcases (p.matchAt options.maxDepth 0 input (.empty options.memoize)).1 with e | s
    · rw [Options.complete_error]
      exact id
    · intro hs
      rcases options.complete_ok input s with h | ⟨-, h⟩ <;> rw [h]
      · exact hs
      · -- what is left over begins where the match ends
        rw [Outcome.Located, Nat.zero_add] at hs
        exact (insideInput input).earlier (Nat.zero_le s.consumed)
          (ParseError.located_leaf rfl fun _ h => Option.some.inj h ▸ ⟨rfl, hs.2⟩)

/-- A letter of two bytes before one of one byte, as compiled. -/
def umlautParser : Parser where
  root := .sequence { id := 2 }
    [.literal { id := 0 } ['ü'] "\"ü\"", .literal { id := 1 } ['b'] "\"b\""]
  rules := #[]

theorem parse_located_umlaut : Text.slice? ['ü', 'a'] 2 3 = some ['a'] ∧
    Outcome.Located ['ü', 'a'] 0 (.error (.stopped 2 (.unmatched 2 "\"b\""))) := by
  have located := Parser.parse_located umlautParser ⟨true, false, 8⟩ ['ü', 'a']
  have reached : umlautParser.Reaches ⟨true, false, 8⟩ ['ü', 'a']
      ⟨.evaluate (.literal { id := 1 } ['b'] "\"b\""), 8, 2, ['a'], .off⟩ :=
    .tail (.tail (.tail (.tail (.single (.runOther rfl)) .sequence) (.partMatched rfl)) .part)
      (.ask rfl)
  exact ⟨(located.1 _ reached).1 _ _ _ _ .literal, located.2⟩

end Typestrip.Grammar
