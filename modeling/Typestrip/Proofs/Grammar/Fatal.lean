import Typestrip.Proofs.Grammar.Failures

/-!
# Fatal failures end the parse

A fatal failure is the failure of everything that is under way when it is raised, up to the parse
itself: no nullable node recovers from it, no choice or repetition goes on after it, no sequence
wraps it, and no memo keeps it for later. So a parse ends with a fatal failure exactly if it raised
that failure, and the failures that make up the tree of another one are none of them fatal.

Main statement: `Parser.parse_fatal`.
-/

namespace Typestrip.Grammar

/-! ## Below the root of a failure -/

/-- The failures right below a failure. -/
def ParseError.causes : ParseError → List ParseError
  | .stopped _ cause => [cause]
  | .exhausted _ alternatives => alternatives
  | .unmatched .. | .leftOver _ | .tooDeep .. | .unresolved _ => []

/-- A failure has another one somewhere below it. -/
def ParseError.Below (e cause : ParseError) : Prop :=
  Relation.TransGen (fun e cause => cause ∈ e.causes) e cause

theorem ParseError.below_iff {e cause : ParseError} :
    e.Below cause ↔ ∃ c ∈ e.causes, c = cause ∨ c.Below cause := by
  rw [Below, Relation.TransGen.head'_iff]
  simp only [Relation.reflTransGen_iff_eq_or_transGen, Below, eq_comm]

/-- A failure that others can have below them: it did not end the parse and it is not about the
input as a whole. -/
def ParseError.IsPartial (e : ParseError) : Prop := e.isFatal = false ∧ ∀ pos, e ≠ .leftOver pos

/-- Nothing but partial failures stands below a failure, if that goes for the failures right below
it. -/
theorem ParseError.isPartial_of_below {e : ParseError}
    (h : ∀ c ∈ e.causes, c.IsPartial ∧ ∀ cause, c.Below cause → cause.IsPartial)
    {cause : ParseError} (hbelow : e.Below cause) : cause.IsPartial := by
  obtain ⟨c, hc, rfl | hbelow⟩ := below_iff.mp hbelow
  · exact (h c hc).1
  · exact (h c hc).2 cause hbelow

theorem ParseError.isPartial_of_leaf {e : ParseError} (h : e.causes = []) {cause : ParseError}
    (hbelow : e.Below cause) : cause.IsPartial :=
  isPartial_of_below (by simp [h]) hbelow

/-- No failure has a fatal one below it, or one about the input as a whole. -/
def partialBelow (input : List Char) : FailureLaw where
  input := input
  holds _ e := (∀ pos, e ≠ .leftOver pos) ∧ ∀ cause, e.Below cause → cause.IsPartial
  unmatched _ _ := ⟨by simp, fun _ h => ParseError.isPartial_of_leaf rfl h⟩
  tooDeep _ _ := ⟨by simp, fun _ h => ParseError.isPartial_of_leaf rfl h⟩
  unresolved _ _ := ⟨by simp, fun _ h => ParseError.isPartial_of_leaf rfl h⟩
  stopped _ he hfatal := ⟨by simp, fun _ h => ParseError.isPartial_of_below
    (List.forall_mem_singleton.mpr ⟨⟨hfatal, he.1⟩, he.2⟩) h⟩
  exhausted {pos es} _ hes := ⟨by simp, fun _ h => ParseError.isPartial_of_below
    (e := .exhausted pos es) (fun c hc => ⟨⟨(hes c hc).2, (hes c hc).1.1⟩, (hes c hc).1.2⟩) h⟩
  earlier _ h := h

/-! ## The way of a fatal failure -/

variable {rules : Rules} {limit : Nat}

/-- A fatal failure of a frame is the failure of all frames that led to it. -/
theorem failure_of_reached {x y : Frame} {e : ParseError} (he : e.isFatal = true)
    (h : Relation.ReflTransGen (Calls rules limit) x y) (hy : y.failure rules limit = some e) :
    x.failure rules limit = some e := by
  induction h using Relation.ReflTransGen.head_induction_on with
  | refl => exact hy
  | head hcall _ ih => exact hcall.failure ih he

/-- A frame that ends with a fatal failure led to where it was raised. -/
theorem FailureLaw.Kept.exists_raises {L : FailureLaw} {x : Frame} (hx : L.Kept x) {e : ParseError}
    (he : e.isFatal = true) (h : x.failure rules limit = some e) :
    ∃ y, Relation.ReflTransGen (Calls rules limit) x y ∧ Raises rules limit y e := by
  induction x using (calls_wellFounded rules limit).induction with
  | _ x ih =>
    rcases Frame.exists_call_of_isFatal he h with hraised | ⟨m, -, hk⟩ | ⟨y, hcall, hy⟩
    · exact ⟨x, .refl, hraised⟩
    · -- a memo in order has not kept any fatal failure
      exact absurd ((hx.memo.failed hk).1.symm.trans he) Bool.false_ne_true
    · obtain ⟨z, hyz, hraised⟩ := ih y hcall (hx.calls hcall) hy
      exact ⟨z, .head hcall hyz, hraised⟩

/-- A parse ends with a fatal failure exactly if a reference raised that failure in its course, and
whatever failure a parse ends with, no failure below it is fatal or says that input is left over. -/
theorem Parser.parse_fatal (p : Parser) (options : Options) (input : List Char) :
    (∀ e, p.parse options input = .error e ∧ e.isFatal = true ↔
      ∃ x, p.Reaches options input x ∧ Raises p.rules options.maxDepth x e) ∧
    ∀ e, p.parse options input = .error e → ∀ cause, e.Below cause →
      cause.isFatal = false ∧ ∀ pos, cause ≠ .leftOver pos := by
  let L := partialBelow input
  have hroot {e : ParseError} : (p.start options input).failure p.rules options.maxDepth = some e ↔
      (p.matchAt options.maxDepth 0 input (.empty options.memoize)).1 = .error e := failure?_eq_some
  refine ⟨fun e => ⟨fun ⟨h, he⟩ => ?_, fun ⟨x, hreach, hraised⟩ => ?_⟩, fun e h cause hbelow => ?_⟩
  · rcases L.parse_failure rfl h with ⟨s, -, rfl⟩ | ⟨h, -⟩
    · cases he
    · exact (L.start_kept p options rfl).exists_raises he (hroot.mpr h)
  · have he := hraised.isFatal
    have hfail := hroot.mp (failure_of_reached he hreach hraised.failure)
    exact ⟨by rw [p.parse_eq, hfail, Options.complete_error], he⟩
  · rcases L.parse_failure rfl h with ⟨s, -, rfl⟩ | ⟨-, hlaw⟩
    · exact ParseError.isPartial_of_leaf rfl hbelow
    · exact hlaw.2 cause hbelow

/-- Any number of times a sequence that begins with a rule without a body, or nothing, as
compiled. -/
def danglingParser : Parser where
  root := .repetition { id := 4 } (.choice { id := 3, nullable := true }
    [.sequence { id := 2 } [.rule { id := 0 } "tail" none, .literal { id := 1 } [';'] "\";\""]])
  rules := #[]

theorem parse_fatal_dangling :
    danglingParser.parse ⟨true, true, 8⟩ ";".toList = .error (.unresolved "tail") := by
  have reached : danglingParser.Reaches ⟨true, true, 8⟩ ";".toList _ :=
    .tail (.tail (.tail (.tail (.tail (.tail (.tail (.tail (.tail (.single (.runOther rfl))
      .repetition) .round) (.runOther rfl)) .choice) .alternative) (.ask rfl)) .sequence) .part)
      (.ask rfl)
  exact ((Parser.parse_fatal danglingParser ⟨true, true, 8⟩ ";".toList).1 _).mpr
    ⟨_, reached, .unresolved rfl⟩ |>.1

end Typestrip.Grammar
