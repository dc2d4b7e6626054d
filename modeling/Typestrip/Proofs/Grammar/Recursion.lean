import Typestrip.Proofs.Grammar.Calls
import Typestrip.Proofs.Grammar.Memoization

/-!
# A rule inside itself at one position

A rule that is about to be entered where it is being matched already has taken no input in between,
and it would come to the same place once more. What the memo has learnt in between does not help: a
settled outcome is one of matching without a memo (`exists_plain_of_ask`), and matching without a
memo takes the same calls (`Calls.plain`), which come to an end. So neither the inner nor the outer
rule has a settled outcome, and the whole parse fails by depth. The same holds of whatever else is
to be done inside itself (`not_settled_of_recursion`).

Main statement: `Parser.parse_recursion`.
-/

namespace Typestrip.Grammar

variable {rules : Rules} {limit : Nat} {input : List Char} {member : Matcher → Prop}

/-! ## Enough entries -/

theorem exists_common_bound {α : Type} {P : α → Nat → Prop}
    (hP : ∀ {x n n'}, n ≤ n' → P x n → P x n') (l : List α) :
    ∃ N, ∀ x ∈ l, ∀ n, P x n → P x N := by
  induction l with
  | nil => exact ⟨0, by simp⟩
  | cons x l ih =>
    obtain ⟨N, hN⟩ := ih
    by_cases hx : ∃ n, P x n
    · obtain ⟨n, hn⟩ := hx
      refine ⟨max n N, List.forall_mem_cons.mpr ⟨fun _ _ => hP (Nat.le_max_left n N) hn, ?_⟩⟩
      intro y hy k hk
      exact hP (Nat.le_max_right n N) (hN y hy k hk)
    · exact ⟨N, List.forall_mem_cons.mpr ⟨fun n hn => absurd ⟨n, hn⟩ hx, hN⟩⟩

theorem enter_mono {body : Matcher} (hbody : IsBody rules body) {pos : Nat}
    {rest : List Char} (hpos : Text.fromBoundary? input pos = some rest) {left left' : Nat}
    (hle : left ≤ left') (h : Outcome.Settled (enter rules limit left body pos rest .off).1) :
    enter rules limit left' body pos rest .off = enter rules limit left body pos rest .off := by
  obtain ⟨gap, rfl⟩ := Nat.exists_eq_add_of_le hle
  have hoff : (plainRuns input).related .off .off := ⟨rfl, rfl⟩
  have hagree := (plainRuns_sideBySide limit left gap).enter hbody hpos hoff
  obtain ⟨hsame, hleft, hright⟩ := Simulation.Agree.eq_of_settled hagree h
  exact Prod.ext hsame (hright.trans hleft.symm)

theorem enter_eq_of_settled {body : Matcher} (hbody : IsBody rules body)
    {pos : Nat} {rest : List Char} (hpos : Text.fromBoundary? input pos = some rest)
    {left left' : Nat} (h : Outcome.Settled (enter rules limit left body pos rest .off).1)
    (h' : Outcome.Settled (enter rules limit left' body pos rest .off).1) :
    enter rules limit left body pos rest .off = enter rules limit left' body pos rest .off := by
  rcases Nat.le_total left left' with hle | hle
  · exact (enter_mono hbody hpos hle h).symm
  · exact enter_mono hbody hpos hle h'

/-- So many entries that more would settle nothing further at any place of the input. -/
def Ample (rules : Rules) (limit : Nat) (input : List Char) (n : Nat) : Prop :=
  ∀ {body pos rest left}, IsBody rules body → Text.fromBoundary? input pos = some rest →
    Outcome.Settled (enter rules limit left body pos rest .off).1 →
      Outcome.Settled (enter rules limit n body pos rest .off).1

theorem exists_ample (rules : Rules) (limit : Nat) (input : List Char) :
    ∃ n, Ample rules limit input n := by
  -- a body and an offset into the input make a place, and there are finitely many of these
  let P (place : Option Matcher × Nat) (n : Nat) : Prop :=
    ∃ body rest, place.1 = some body ∧ IsBody rules body ∧
      Text.fromBoundary? input place.2 = some rest ∧
      Outcome.Settled (enter rules limit n body place.2 rest .off).1
  obtain ⟨n, hn⟩ := exists_common_bound (P := P)
    (fun hle ⟨body, rest, hplace, hbody, hpos, h⟩ =>
      ⟨body, rest, hplace, hbody, hpos, (enter_mono hbody hpos hle h).symm ▸ h⟩)
    (rules.toList.product (List.range (Text.width input + 1)))
  refine ⟨n, fun {body pos rest left} hbody hpos h => ?_⟩
  have hplace : (some body, pos) ∈ rules.toList.product (List.range (Text.width input + 1)) := by
    obtain ⟨i, hi⟩ := hbody
    obtain ⟨before, hinput, hw⟩ := Text.fromBoundary?_eq_some_iff.mp hpos
    refine List.pair_mem_product.mpr ⟨?_, List.mem_range.mpr ?_⟩
    · exact Array.mem_toList_iff.mpr (Array.mem_of_getElem? (Option.join_eq_some_iff.mp hi))
    · rw [hinput, Text.width_append]
      omega
  obtain ⟨body', rest', hsome, -, hpos', h'⟩ := hn _ hplace left ⟨body, rest, rfl, hbody, hpos, h⟩
  obtain rfl := Option.some.inj hsome
  obtain rfl := Option.some.inj (hpos.symm.trans hpos')
  exact h'

/-- With ample entries left, matching without a memo follows matching with any number left. -/
theorem Ample.sideBySide {n : Nat} (hn : Ample rules limit input n) (left : Nat) :
    (plainRuns input).SideBySide rules (fun _ => True) (enter rules limit left)
      (enter rules limit n) where
  ask _ := plainRuns_ask
  enter := by
    rintro body hbody pos rest m₁ m₂ hpos ⟨rfl, rfl⟩
    by_cases h : Outcome.Settled (enter rules limit left body pos rest .off).1
    · show Simulation.Agree _ _ _ (enter rules limit n body pos rest .off)
      rw [← enter_eq_of_settled hbody hpos h (hn hbody hpos h)]
      exact (plainRuns_sideBySide limit left 0).enter hbody hpos ⟨rfl, rfl⟩
    · exact .excused_of_not_settled h

theorem Ample.plain_eq {n : Nat} (hn : Ample rules limit input n) {m : Matcher} {pos : Nat}
    {rest : List Char} (hpos : Text.fromBoundary? input pos = some rest) {left : Nat}
    (h : Outcome.Settled (m.plain rules limit left pos rest)) :
    m.plain rules limit n pos rest = m.plain rules limit left pos rest :=
  plain_eq_of_sideBySide (hn.sideBySide left) hpos h

/-! ## Matching with a memo is matching with ample entries -/

/-- A run with a sound memo beside one without a memo. -/
def memoAndPlain (rules : Rules) (limit : Nat) (input : List Char) (member : Matcher → Prop) :
    Simulation :=
  .ofMemos input fun m₁ m₂ => m₁.Sound rules limit input member ∧ m₂ = .off

theorem Ample.ask {n : Nat} (hn : Ample rules limit input n)
    (hid : Identified member) {e : Matcher → Recognizer} {m : Matcher} (hm : member m)
    (h : (memoAndPlain rules limit input member).Follows (m.evaluate rules e)
      (m.evaluate rules (enter rules limit n))) :
    (memoAndPlain rules limit input member).FollowsAsked rules e (enter rules limit n) m := by
  rintro pos rest m₁ m₂ hpos ⟨hsound, rfl⟩
  cases hk : m₁.knows m.attributes.id pos with
  | none =>
    refine Simulation.asked_ofMemos h hpos hk (by simp) ⟨hsound.find _ _, rfl⟩ ?_
    rintro o m₁ m₂ - hrun hset ⟨hsound', rfl⟩
    exact ⟨hsound'.insert hid hm hpos hset (congrArg Prod.fst hrun), rfl⟩
  | some o =>
    obtain ⟨hset, left, ho⟩ := hsound hm hpos hk
    have hplain : m.plain rules limit n pos rest = o :=
      (hn.plain_eq hpos (ho ▸ hset)).trans ho
    show Simulation.Agree _ _ (memoized _ _ pos rest m₁) (memoized _ _ pos rest .off)
    rw [memoized_of_knows hk, memoized_of_not_knows (by simp), Memo.find_off,
      evaluate_off hpos (hplain ▸ hset), hplain]
    exact .ofMemos_rfl (fun s hs => plain_boundary hpos (hplain.trans hs))
      ⟨hsound.find _ _, rfl⟩

/-- With ample entries left, matching without a memo follows matching with a sound memo. -/
theorem Ample.memoAndPlain_sideBySide {n : Nat} (hn : Ample rules limit input n)
    (F : Family rules member) (hid : Identified member) (left : Nat) :
    (memoAndPlain rules limit input member).SideBySide rules member (enter rules limit left)
      (enter rules limit n) := by
  induction left with
  | zero => exact ⟨fun hm => hn.ask hid hm, fun _ _ _ _ _ _ _ => .excused trivial⟩
  | succ left ih =>
    refine ⟨fun hm => hn.ask hid hm, ?_⟩
    rintro body hbody pos rest m₁ m₂ hpos ⟨hsound, rfl⟩
    have hagree := Simulation.matchBody_follows F ih (F.bodies hbody) hpos ⟨hsound, rfl⟩
    by_cases h : Outcome.Settled (enter rules limit (left + 1) body pos rest m₁).1
    · -- one entry more than ample settles nothing that ample entries leave open
      have hsame : (enter rules limit (n + 1) body pos rest .off).1 =
          (enter rules limit (left + 1) body pos rest m₁).1 :=
        (Simulation.Agree.eq_of_settled hagree h).1
      have hset : Outcome.Settled (enter rules limit (n + 1) body pos rest .off).1 := hsame ▸ h
      show Simulation.Agree _ _ _ (enter rules limit n body pos rest .off)
      rw [← enter_mono hbody hpos (Nat.le_succ n) (hn hbody hpos hset), enter, enter]
      exact hagree
    · exact .excused_of_not_settled h

/-- What the memo answers or learns, if it is settled, is what matching without a memo gives. -/
theorem exists_plain_of_ask (F : Family rules member) (hid : Identified member) {m : Matcher}
    (hm : member m) {pos : Nat} {rest : List Char} (hpos : Text.fromBoundary? input pos = some rest)
    {memo memo' : Memo} (hmemo : memo.Sound rules limit input member) {left : Nat} {o : Outcome}
    (h : memoized m.attributes.id (m.evaluate rules (enter rules limit left)) pos rest memo =
      (o, memo')) (ho : Outcome.Settled o) :
    memo'.Sound rules limit input member ∧ ∃ n, m.plain rules limit n pos rest = o := by
  obtain ⟨n, hn⟩ := exists_ample rules limit input
  have hside := hn.memoAndPlain_sideBySide F hid left
  have hagree := hside.ask hm (Simulation.evaluate_follows F hside hm) hpos ⟨hmemo, rfl⟩
  rw [h] at hagree
  obtain ⟨hplain, hsound, -⟩ := Simulation.Agree.eq_of_settled hagree ho
  exact ⟨hsound, n, hplain⟩

theorem exists_plain_of_run (F : Family rules member) (hid : Identified member) {m : Matcher}
    (hm : member m) {pos : Nat} {rest : List Char} (hpos : Text.fromBoundary? input pos = some rest)
    {memo memo' : Memo} (hmemo : memo.Sound rules limit input member) {left : Nat} {o : Outcome}
    (h : m.run rules (enter rules limit left) pos rest memo = (o, memo'))
    (ho : Outcome.Settled o) :
    memo'.Sound rules limit input member ∧ ∃ n, m.plain rules limit n pos rest = o := by
  obtain ⟨n, hn⟩ := exists_ample rules limit input
  have hside := hn.memoAndPlain_sideBySide F hid left
  have hagree := Simulation.matchBody_follows F hside hm hpos ⟨hmemo, rfl⟩
  rw [h] at hagree
  obtain ⟨hplain, hsound, -⟩ := Simulation.Agree.eq_of_settled hagree ho
  exact ⟨hsound, n, (run_off m n pos rest).symm.trans hplain⟩

/-! ## Moments of a parse -/

/-- The nodes that a task is about. -/
def Task.nodes : Task → List Matcher
  | run m | ask m | evaluate m | rounds m _ => [m]
  | parts ms _ | alternatives ms _ => ms
  | enter _ => []

/-- What holds of all moments of a parse: they are at a character boundary, they are about nodes of
the grammar, and their memo is sound. -/
structure Frame.Placed (rules : Rules) (limit : Nat) (input : List Char) (member : Matcher → Prop)
    (x : Frame) : Prop where
  boundary : Text.fromBoundary? input x.pos = some x.rest
  sound : x.memo.Sound rules limit input member
  nodes : ∀ m ∈ x.task.nodes, member m

theorem Frame.Placed.asked {x : Frame} (hx : x.Placed rules limit input member) {m : Matcher}
    (h : x.task = .ask m) : member m :=
  hx.nodes m (by rw [h]; exact List.mem_singleton_self m)

theorem Calls.placed (F : Family rules member) (hid : Identified member) {x y : Frame}
    (h : Calls rules limit x y) (hx : x.Placed rules limit input member) :
    y.Placed rules limit input member := by
  obtain ⟨hpos, hsound, hnodes⟩ := hx
  cases h with
  | runTerminal | runOther | round => exact ⟨hpos, hsound, hnodes⟩
  | ask hfind =>
    obtain rfl := congrArg Prod.snd hfind
    exact ⟨hpos, hsound.find _ _, hnodes⟩
  | sequence | choice | repetition =>
    exact ⟨hpos, hsound, fun c hc => F.children (hnodes _ (List.mem_singleton_self _)) hc⟩
  | part | alternative =>
    exact ⟨hpos, hsound, List.forall_mem_singleton.mpr (hnodes _ List.mem_cons_self)⟩
  | @partMatched m ms fields left pos rest memo s memo' hhead =>
    have hm : member m := hnodes m List.mem_cons_self
    obtain ⟨hsound', n, hplain⟩ := exists_plain_of_ask F hid hm hpos hsound hhead (.ok s)
    exact ⟨Text.fromBoundary?_step hpos (plain_boundary hpos hplain), hsound',
      fun c hc => hnodes c (List.mem_cons_of_mem _ hc)⟩
  | alternativeFailed hhead hfatal =>
    obtain ⟨hsound', -⟩ := exists_plain_of_ask F hid (hnodes _ List.mem_cons_self) hpos hsound hhead
      (.not_fatal hfatal)
    exact ⟨hpos, hsound', fun c hc => hnodes c (List.mem_cons_of_mem _ hc)⟩
  | @roundMatched child items left pos c cs memo s n memo' hhead hs =>
    have hm : member child := hnodes child (List.mem_singleton_self child)
    obtain ⟨hsound', k, hplain⟩ := exists_plain_of_run F hid hm hpos hsound hhead (.ok s)
    have hend := plain_boundary hpos hplain
    rw [hs] at hend
    exact ⟨Text.fromBoundary?_step hpos hend, hsound', hnodes⟩
  | rule => exact ⟨hpos, hsound, by simp [Task.nodes]⟩
  | enter hbody => exact ⟨hpos, hsound, List.forall_mem_singleton.mpr (F.bodies ⟨_, hbody⟩)⟩

theorem Frame.Placed.reached (F : Family rules member) (hid : Identified member) {x y : Frame}
    (hx : x.Placed rules limit input member) (h : Relation.ReflTransGen (Calls rules limit) x y) :
    y.Placed rules limit input member := by
  induction h with
  | refl => exact hx
  | tail _ hcall ih => exact hcall.placed F hid ih

/-- A failure by depth names the limit of the parse. -/
theorem Frame.Placed.eq_limit (F : Family rules member) (hid : Identified member) {x : Frame}
    (hx : x.Placed rules limit input member) {pos n : Nat}
    (h : x.failure rules limit = some (.tooDeep pos n)) : n = limit := by
  induction x using (calls_wellFounded rules limit).induction with
  | _ x ih =>
    rcases Frame.exists_call_of_isFatal rfl h with hraised | ⟨m, htask, hk⟩ | ⟨y, hcall, hy⟩
    · cases hraised
      rfl
    · -- a sound memo has not kept any failure by depth
      exact absurd trivial ((hx.sound (hx.asked htask) hx.boundary hk).1 _ rfl)
    · exact ih y hcall (hcall.placed F hid hx) hy

/-! ## The same calls without a memo -/

/-- A frame that does not fail by depth. -/
def Frame.Settled (rules : Rules) (limit : Nat) (x : Frame) : Prop :=
  ∀ e, x.failure rules limit = some e → ¬ e.IsTooDeep

theorem Calls.settled {x y : Frame} (h : Calls rules limit x y) (hx : x.Settled rules limit) :
    y.Settled rules limit := fun e hy hdeep => hx e (h.failure hy hdeep.isFatal) hdeep

theorem settled_of_reached {x y : Frame} (h : Relation.ReflTransGen (Calls rules limit) x y)
    (hx : x.Settled rules limit) : y.Settled rules limit := by
  induction h with
  | refl => exact hx
  | tail _ hcall ih => exact hcall.settled ih

/-- The same moment without a memo and with `n` entries left. -/
def Frame.plain (x : Frame) (n : Nat) : Frame := ⟨x.task, n, x.pos, x.rest, .off⟩

theorem Frame.settled_ask_off {m : Matcher} {n pos : Nat} {rest : List Char} :
    Frame.Settled rules limit ⟨.ask m, n, pos, rest, .off⟩ ↔
      Outcome.Settled (m.plain rules limit n pos rest) := by
  simp only [Frame.Settled, Frame.failure, ask_off, failure?_eq_some, Outcome.Settled]

theorem Frame.settled_run_off {m : Matcher} {n pos : Nat} {rest : List Char} :
    Frame.Settled rules limit ⟨.run m, n, pos, rest, .off⟩ ↔
      Outcome.Settled (m.plain rules limit n pos rest) := by
  simp only [Frame.Settled, Frame.failure, run_off, failure?_eq_some, Outcome.Settled]

theorem Frame.settled_enter {slot : Nat} {body : Matcher} (hbody : (rules[slot]?).join = some body)
    {left pos : Nat} {rest : List Char} {memo : Memo} :
    Frame.Settled rules limit ⟨.enter slot, left, pos, rest, memo⟩ ↔
      Outcome.Settled (enter rules limit left body pos rest memo).1 := by
  simp only [Frame.Settled, Frame.failure, hbody, Option.bind_some, failure?_eq_some,
    Outcome.Settled]

/-- What is found out with a memo is found out without one, if enough entries are left there. -/
theorem ask_off_of_ask (F : Family rules member) (hid : Identified member) {m : Matcher}
    (hm : member m) {pos : Nat} {rest : List Char} (hpos : Text.fromBoundary? input pos = some rest)
    {memo memo' : Memo} (hmemo : memo.Sound rules limit input member) {left n : Nat} {o : Outcome}
    (h : memoized m.attributes.id (m.evaluate rules (enter rules limit left)) pos rest memo =
      (o, memo')) (ho : Outcome.Settled o)
    (hn : Frame.Settled rules limit ⟨.ask m, n, pos, rest, .off⟩) :
    memoized m.attributes.id (m.evaluate rules (enter rules limit n)) pos rest .off =
      (o, .off) := by
  obtain ⟨-, k, hk⟩ := exists_plain_of_ask F hid hm hpos hmemo h ho
  have hset := Frame.settled_ask_off.mp hn
  rw [ask_off_of_settled hpos hset, plain_eq_of_settled hpos hset (hk ▸ ho), hk]

theorem run_off_of_run (F : Family rules member) (hid : Identified member) {m : Matcher}
    (hm : member m) {pos : Nat} {rest : List Char} (hpos : Text.fromBoundary? input pos = some rest)
    {memo memo' : Memo} (hmemo : memo.Sound rules limit input member) {left n : Nat} {o : Outcome}
    (h : m.run rules (enter rules limit left) pos rest memo = (o, memo')) (ho : Outcome.Settled o)
    (hn : Frame.Settled rules limit ⟨.run m, n, pos, rest, .off⟩) :
    m.run rules (enter rules limit n) pos rest .off = (o, .off) := by
  obtain ⟨-, k, hk⟩ := exists_plain_of_run F hid hm hpos hmemo h ho
  have hset := Frame.settled_run_off.mp hn
  rw [run_off_of_settled hpos hset, plain_eq_of_settled hpos hset (hk ▸ ho), hk]

/-- Without a memo a frame that does not fail by depth makes the same calls. -/
theorem Calls.plain (F : Family rules member) (hid : Identified member) {x y : Frame}
    (h : Calls rules limit x y) (hx : x.Placed rules limit input member) {n : Nat}
    (hn : (x.plain n).Settled rules limit) : ∃ k, Calls rules limit (x.plain n) (y.plain k) := by
  obtain ⟨hpos, hsound, hnodes⟩ := hx
  cases h with
  | runTerminal hm => exact ⟨n, .runTerminal hm⟩
  | runOther hm => exact ⟨n, .runOther hm⟩
  | ask => exact ⟨n, .ask rfl⟩
  | sequence => exact ⟨n, .sequence⟩
  | part => exact ⟨n, .part⟩
  | partMatched hhead =>
    have hoff := ask_off_of_ask F hid (hnodes _ List.mem_cons_self) hpos hsound hhead (.ok _)
      (Calls.part.settled hn)
    exact ⟨n, .partMatched hoff⟩
  | choice => exact ⟨n, .choice⟩
  | alternative => exact ⟨n, .alternative⟩
  | alternativeFailed hhead hfatal =>
    have hoff := ask_off_of_ask F hid (hnodes _ List.mem_cons_self) hpos hsound hhead
      (.not_fatal hfatal) (Calls.alternative.settled hn)
    exact ⟨n, .alternativeFailed hoff hfatal⟩
  | repetition => exact ⟨n, .repetition⟩
  | round => exact ⟨n, .round⟩
  | roundMatched hhead hs =>
    have hoff := run_off_of_run F hid (hnodes _ (List.mem_singleton_self _)) hpos hsound hhead
      (.ok _) (Calls.round.settled hn)
    exact ⟨n, .roundMatched hoff hs⟩
  | rule hbody => exact ⟨n, .rule hbody⟩
  | @enter slot body left pos rest memo hbody =>
    -- the only call that leaves fewer entries, and a settled frame has one left
    cases n with
    | zero =>
      refine absurd trivial (hn (.tooDeep pos limit) ?_)
      simp only [Frame.plain, Frame.failure, hbody, Option.bind_some]
      rfl
    | succ n => exact ⟨n, .enter hbody⟩

theorem exists_plain_of_transGen (F : Family rules member) (hid : Identified member) {x y : Frame}
    (h : Relation.TransGen (Calls rules limit) x y) (hx : x.Placed rules limit input member)
    {n : Nat} (hn : (x.plain n).Settled rules limit) :
    ∃ k, Relation.TransGen (Calls rules limit) (x.plain n) (y.plain k) := by
  induction h with
  | single hcall =>
    obtain ⟨k, hcall'⟩ := hcall.plain F hid hx hn
    exact ⟨k, .single hcall'⟩
  | tail hreach hcall ih =>
    obtain ⟨k, hreach'⟩ := ih
    have hset := settled_of_reached hreach'.to_reflTransGen hn
    obtain ⟨j, hcall'⟩ := hcall.plain F hid (hx.reached F hid hreach.to_reflTransGen) hset
    exact ⟨j, hreach'.tail hcall'⟩

/-! ## The same thing to do inside itself -/

/-- Without a memo a frame that comes to the same thing to do at the same position fails by depth:
without end, it would come there once more. -/
theorem not_settled_of_recursion (F : Family rules member) (hid : Identified member) {x y : Frame}
    {task : Task} (hx : x.Placed rules limit input member)
    (h : Relation.TransGen (Calls rules limit) x y) (htask : x.task = task)
    (htask' : y.task = task) (hpos : x.pos = y.pos) (n : Nat) :
    ¬ (x.plain n).Settled rules limit := by
  induction n using (InvImage.wf x.plain (calls_wellFounded rules limit).transGen).induction with
  | _ n ih =>
    intro hn
    obtain ⟨k, hreach⟩ := exists_plain_of_transGen F hid h hx hn
    have hset := settled_of_reached hreach.to_reflTransGen hn
    -- the inner frame is the outer one again
    have hrest : x.rest = y.rest := by
      have hboundary := (hx.reached F hid h.to_reflTransGen).boundary
      rw [← hpos, hx.boundary] at hboundary
      exact Option.some.inj hboundary
    have hagain : y.plain k = x.plain k := by
      rw [Frame.plain, Frame.plain, htask, htask', hpos, hrest]
    rw [hagain] at hreach hset
    exact ih k (Relation.transGen_swap.mpr hreach) hset

theorem exists_plain_of_enter (F : Family rules member) (hid : Identified member) {x : Frame}
    {slot : Nat} (hx : x.Placed rules limit input member) (hslot : x.task = .enter slot)
    (hset : x.Settled rules limit) : ∃ n, (x.plain n).Settled rules limit := by
  obtain ⟨n, hn⟩ := exists_ample rules limit input
  obtain ⟨task, left, pos, rest, memo⟩ := x
  obtain rfl : task = .enter slot := hslot
  cases hbody : (rules[slot]?).join with
  | none =>
    refine ⟨n, fun e he => ?_⟩
    simp [Frame.plain, Frame.failure, hbody] at he
  | some body =>
    have ho := (Frame.settled_enter hbody).mp hset
    have hagree := (hn.memoAndPlain_sideBySide F hid left).enter ⟨slot, hbody⟩ hx.boundary
      ⟨hx.sound, rfl⟩
    have hsame : (enter rules limit n body pos rest .off).1 =
        (enter rules limit left body pos rest memo).1 :=
      (Simulation.Agree.eq_of_settled hagree ho).1
    exact ⟨n, (Frame.settled_enter hbody).mpr (hsame ▸ ho)⟩

/-- Every parse comes to an end. If a rule is about to be entered where it is being matched already,
the parse fails by depth. -/
theorem Parser.parse_recursion {p : Parser} (hp : p.Built) (options : Options) (input : List Char) :
    ({x | Relation.ReflTransGen (Calls p.rules options.maxDepth) (p.start options input) x}.Finite ∧
      ¬ ∃ calls : Nat → Frame, calls 0 = p.start options input ∧
        ∀ n, Calls p.rules options.maxDepth (calls n) (calls (n + 1))) ∧
    ∀ {outer inner : Frame} {slot : Nat},
      Relation.ReflTransGen (Calls p.rules options.maxDepth) (p.start options input) outer →
      Relation.TransGen (Calls p.rules options.maxDepth) outer inner →
      outer.task = .enter slot → inner.task = .enter slot → outer.pos = inner.pos →
      ∃ pos, p.parse options input = .error (.tooDeep pos options.maxDepth) := by
  refine ⟨⟨finite_reached _ _ _, ?_⟩, ?_⟩
  · rintro ⟨calls, -, hcalls⟩
    have hwf : IsWellFounded Frame fun y x => Calls p.rules options.maxDepth x y :=
      ⟨calls_wellFounded _ _⟩
    obtain ⟨n, hn⟩ :=
      WellFounded.not_rel_apply_succ (r := fun y x => Calls p.rules options.maxDepth x y) calls
    exact hn (hcalls n)
  · intro outer inner slot hreach hagain hslot hslot' hpos
    obtain ⟨member, F, hid, hroot⟩ := hp.exists_family
    have hstart : (p.start options input).Placed p.rules options.maxDepth input member :=
      ⟨Text.fromBoundary?_zero input, Memo.sound_empty _, List.forall_mem_singleton.mpr hroot⟩
    have houter := hstart.reached F hid hreach
    have hdeep : ¬ (p.start options input).Settled p.rules options.maxDepth := by
      intro hset
      obtain ⟨n, hn⟩ := exists_plain_of_enter F hid houter hslot (settled_of_reached hreach hset)
      exact not_settled_of_recursion F hid houter hagain hslot hslot' hpos n hn
    simp only [Frame.Settled, not_forall, not_not] at hdeep
    obtain ⟨e, he, hdeep⟩ := hdeep
    cases e with
    | tooDeep pos n =>
      obtain rfl := hstart.eq_limit F hid he
      have hroot : (p.matchAt options.maxDepth 0 input (.empty options.memoize)).1 =
          .error (.tooDeep pos options.maxDepth) := failure?_eq_some.mp he
      refine ⟨pos, ?_⟩
      rw [p.parse_eq, hroot]
      unfold Options.complete
      split <;> rfl
    | _ => exact hdeep.elim

/-- Sums of ones whose rule begins with itself, as compiled. -/
def sumParser : Parser where
  root := .rule { id := 5 } "sum" (some 0)
  rules := #[some (.choice { id := 4 }
    [.sequence { id := 2 }
      [.rule { id := 0 } "sum" (some 0), .literal { id := 1 } ['+', '1'] "\"+1\""],
    .literal { id := 3 } ['1'] "\"1\""])]

theorem sumParser_built : sumParser.Built := by
  have declared := Workshop.empty.builder.work (.declare "sum")
  have parts := (declared.work (.reference "sum")).work (.literal "+1")
  have longer := parts.work (.sequence (List.forall_mem_cons.mpr
    ⟨.tail _ (.head _), List.forall_mem_singleton.mpr (.head _)⟩))
  have body := (longer.work (.literal "1")).work (.choice (List.forall_mem_cons.mpr
    ⟨.tail _ (.head _), List.forall_mem_singleton.mpr (.head _)⟩))
  have defined := (body.work (.define "sum" (.head _))).work (.reference "sum")
  exact .ofBuilder defined (.head _) (.head _) rfl

theorem parse_recursion_sum : sumParser.Built ∧
    ∃ pos, sumParser.parse ⟨true, true, 3⟩ "1+1".toList = .error (.tooDeep pos 3) := by
  have outer : Relation.ReflTransGen (Calls sumParser.rules 3)
      (sumParser.start ⟨true, true, 3⟩ "1+1".toList)
      ⟨.enter 0, 3, 0, "1+1".toList, .empty true⟩ :=
    .tail (.single (.runOther rfl)) (.rule rfl)
  have inner : Relation.TransGen (Calls sumParser.rules 3)
      ⟨.enter 0, 3, 0, "1+1".toList, .empty true⟩
      ⟨.enter 0, 2, 0, "1+1".toList, ⟨true, ∅, 0, 2⟩⟩ :=
    .tail (.tail (.tail (.tail (.tail (.tail (.tail (.tail (.single (.enter rfl)) (.runOther rfl))
      .choice) .alternative) (.ask rfl)) .sequence) .part) (.ask rfl)) (.rule rfl)
  exact ⟨sumParser_built, (Parser.parse_recursion sumParser_built ⟨true, true, 3⟩ "1+1".toList).2
    outer inner rfl rfl rfl⟩

end Typestrip.Grammar
