import Typestrip.Proofs.Grammar.Outlines
import Typestrip.Proofs.Grammar.Recursion

/-!
# Rules at one position

How often rules are entered inside each other without any input in between can be read off a grammar
in which every rule has a rank above the ranks of the rules that its body may enter at its own
position. `Outline.takes` tells which nodes cannot match nothing, `Matcher.lead` is the highest rank
of a rule that a node may enter where it begins, and `Ranked` says that the ranks are in order. Every
call in the course of a parse goes down in rank or on in the input (`Calls.descends`).

Main statements: `Parser.parse_not_tooDeep`, a limit that grows with the input is not reached, and
`entriesAt_le`, the rules that are active at one position are no more than there are ranks.
-/

namespace Typestrip.Grammar

/-! ## Ranks -/

mutual
/-- The highest rank of a rule that a node may enter where it begins. -/
def Matcher.lead (sure : Nat → Bool) (rank : Nat → Nat) : Matcher → Nat
  | .literal _ _ _ | .pattern _ _ _ => 0
  | .sequence _ ms => Matcher.leadAll sure rank ms
  | .choice _ ms => Matcher.leadFirst sure rank ms
  | .repetition _ m => m.lead sure rank
  | .rule _ _ slot => (slot.map rank).getD 0

/-- Parts of a sequence are begun at the same position until one takes something. -/
def Matcher.leadAll (sure : Nat → Bool) (rank : Nat → Nat) : List Matcher → Nat
  | [] => 0
  | m :: ms =>
    max (m.lead sure rank) (if m.outline.takes sure then 0 else Matcher.leadAll sure rank ms)

/-- All alternatives are begun at the same position. -/
def Matcher.leadFirst (sure : Nat → Bool) (rank : Nat → Nat) : List Matcher → Nat
  | [] => 0
  | m :: ms => max (m.lead sure rank) (Matcher.leadFirst sure rank ms)
end

/-- The ranks of the rules are in order: the body of a rule enters only rules of lower rank where it
begins, and it takes something if that is assumed of the rule. -/
structure Ranked (rules : Rules) (sure : Nat → Bool) (rank : Nat → Nat) (bound : Nat) : Prop where
  takes : ∀ {slot body}, sure slot = true → (rules[slot]?).join = some body →
    body.outline.takes sure = true
  lead : ∀ {slot body}, (rules[slot]?).join = some body → body.lead sure rank < rank slot
  bounded : ∀ slot, rank slot ≤ bound

/-- What a rank says of what there is to do. -/
def Task.lead (sure : Nat → Bool) (rank : Nat → Nat) : Task → Nat
  | run m | ask m | evaluate m => m.lead sure rank
  | parts ms _ => Matcher.leadAll sure rank ms
  | alternatives ms _ => Matcher.leadFirst sure rank ms
  | rounds child _ => child.lead sure rank
  | enter slot => rank slot

/-- How many rules are entered: one or none. -/
def Task.entries : Task → Nat
  | enter _ => 1
  | _ => 0

section Ranked

variable {rules : Rules} {sure : Nat → Bool} {rank : Nat → Nat} {bound limit : Nat}
  {input : List Char} {member : Matcher → Prop}

/-- What takes something as far as its parts tell does so. -/
theorem Ranked.length_lt (h : Ranked rules sure rank bound) {o : Outline} {cs rest : List Char}
    (hleaves : Leaves (outlineOf rules) o cs (some rest)) (ho : o.takes sure = true) :
    rest.length < cs.length := by
  refine hleaves.length_lt (fun {slot} o hslot hbody => ?_) rfl ho
  obtain ⟨body, hslot', rfl⟩ := Option.map_eq_some_iff.mp hbody
  exact h.takes hslot hslot'

theorem Ranked.consumed_pos (h : Ranked rules sure rank bound) {left pos : Nat} {m : Matcher}
    (hm : m.outline.takes sure = true) {cs : List Char} {s : Success}
    (hplain : m.plain rules limit left pos cs = .ok s) : 0 < s.consumed := by
  obtain ⟨text, rest, rfl, hs, hread⟩ := Matcher.read_of_plain_ok hplain
  have hlt := h.length_lt (Matcher.leaves_of_read_matched hread) hm
  rw [List.length_append] at hlt
  have htext : text ≠ [] := List.length_pos_iff.mp (by omega)
  have hwidth := mt width_eq_zero_iff.mp htext
  omega

theorem Matcher.lead_le (hbound : ∀ slot, rank slot ≤ bound) (m : Matcher) :
    m.lead sure rank ≤ bound := by
  have hall {ms : List Matcher} (h : ∀ m ∈ ms, m.lead sure rank ≤ bound) :
      Matcher.leadAll sure rank ms ≤ bound ∧ Matcher.leadFirst sure rank ms ≤ bound := by
    induction ms with
    | nil => exact ⟨Nat.zero_le _, Nat.zero_le _⟩
    | cons m ms ih =>
      obtain ⟨hm, hms⟩ := List.forall_mem_cons.mp h
      rw [leadAll, leadFirst]
      refine ⟨Nat.max_le.mpr ⟨hm, ?_⟩, Nat.max_le.mpr ⟨hm, (ih hms).2⟩⟩
      split
      · exact Nat.zero_le _
      · exact (ih hms).1
  induction m using Matcher.treeInduction with
  | step m ih =>
    cases m with
    | literal | pattern => exact Nat.zero_le _
    | sequence a ms => exact (hall ih).1
    | choice a ms => exact (hall ih).2
    | repetition a m => exact ih m (List.mem_singleton_self m)
    | rule a name slot =>
      cases slot with
      | none => exact Nat.zero_le _
      | some i => exact hbound i

theorem Task.lead_le (hbound : ∀ slot, rank slot ≤ bound) (t : Task) :
    t.lead sure rank ≤ bound := by
  have hmatcher (m : Matcher) : m.lead sure rank ≤ bound := m.lead_le hbound
  cases t with
  | run m | ask m | evaluate m | rounds m => exact hmatcher m
  | parts ms => exact hmatcher (.sequence { id := 0 } ms)
  | alternatives ms => exact hmatcher (.choice { id := 0 } ms)
  | enter slot => exact hbound slot

/-- A call stays where it is and does not go up in rank, and an entry goes down; or it goes on in the
input, and it is no entry. -/
theorem Calls.descends (h : Ranked rules sure rank bound) (F : Family rules member)
    (hid : Identified member) {x y : Frame} (hcall : Calls rules limit x y)
    (hx : x.Placed rules limit input member) :
    y.left + x.task.entries = x.left ∧
      (y.pos = x.pos ∧ y.task.lead sure rank + x.task.entries ≤ x.task.lead sure rank ∨
        x.pos < y.pos ∧ x.task.entries = 0) := by
  cases hcall with
  | runTerminal | runOther | ask | sequence | choice | repetition | round | rule =>
    exact ⟨rfl, .inl ⟨rfl, Nat.le_refl _⟩⟩
  | part =>
    refine ⟨rfl, .inl ⟨rfl, ?_⟩⟩
    exact Nat.le_max_left _ _
  | alternative =>
    refine ⟨rfl, .inl ⟨rfl, ?_⟩⟩
    exact Nat.le_max_left _ _
  | alternativeFailed =>
    refine ⟨rfl, .inl ⟨rfl, ?_⟩⟩
    exact Nat.le_max_right _ _
  | @partMatched m ms fields left pos rest memo s memo' hhead =>
    refine ⟨rfl, ?_⟩
    have hm : member m := hx.nodes m List.mem_cons_self
    obtain ⟨-, n, hplain⟩ := exists_plain_of_ask F hid hm hx.boundary hx.sound hhead (.ok s)
    rcases Nat.eq_zero_or_pos s.consumed with hzero | hpos
    · -- a part that took nothing is not one of those that take something
      have htakes : m.outline.takes sure = false := by
        refine Bool.eq_false_of_not_eq_true fun htakes => ?_
        have := h.consumed_pos htakes hplain
        omega
      refine .inl ⟨by rw [hzero]; rfl, ?_⟩
      show Matcher.leadAll sure rank ms ≤ Matcher.leadAll sure rank (m :: ms)
      rw [Matcher.leadAll, htakes]
      exact Nat.le_max_right _ _
    · exact .inr ⟨Nat.lt_add_of_pos_right hpos, rfl⟩
  | roundMatched => exact ⟨rfl, .inr ⟨Nat.lt_add_of_pos_right (Nat.succ_pos _), rfl⟩⟩
  | enter hbody => exact ⟨rfl, .inl ⟨rfl, h.lead hbody⟩⟩

/-! ## Enough entries -/

/-- The entries that are left suffice for the ranks at this position and at all later ones. -/
def Frame.Ample (sure : Nat → Bool) (rank : Nat → Nat) (bound : Nat) (input : List Char) (x : Frame) :
    Prop :=
  x.task.lead sure rank + bound * (Text.width input - x.pos) ≤ x.left

theorem Calls.ample (h : Ranked rules sure rank bound) (F : Family rules member)
    (hid : Identified member) {x y : Frame} (hcall : Calls rules limit x y)
    (hx : x.Placed rules limit input member) (hample : x.Ample sure rank bound input) :
    y.Ample sure rank bound input := by
  have hle := (Text.isBoundary_of_fromBoundary? (hcall.placed F hid hx).boundary).le_width
  have hlead : y.task.lead sure rank ≤ bound := y.task.lead_le h.bounded
  obtain ⟨hleft, ⟨hpos, hdown⟩ | ⟨hlt, hentries⟩⟩ := hcall.descends h F hid hx
  · rw [Frame.Ample] at hample ⊢
    rw [hpos]
    omega
  · -- the ranks at the positions that have been passed are not needed any more
    have hstep : bound * (Text.width input - y.pos) + bound ≤
        bound * (Text.width input - x.pos) := by
      rw [← Nat.mul_succ]
      exact Nat.mul_le_mul_left bound (by omega)
    rw [Frame.Ample] at hample ⊢
    omega

/-- A frame with enough entries does not fail by depth. -/
theorem Frame.Ample.settled (h : Ranked rules sure rank bound) (F : Family rules member)
    (hid : Identified member) {x : Frame} (hx : x.Placed rules limit input member)
    (hample : x.Ample sure rank bound input) : x.Settled rules limit := by
  intro e he hdeep
  induction x using (calls_wellFounded rules limit).induction with
  | _ x ih =>
    rcases Frame.exists_call_of_isFatal hdeep.isFatal he with hraised | ⟨m, htask, hk⟩ |
      ⟨y, hcall, hy⟩
    · cases hraised with
      | tooDeep hbody =>
        have := h.lead hbody
        simp only [Frame.Ample, Task.lead] at hample
        omega
      | unresolved => exact hdeep.elim
    · exact (hx.sound (hx.asked htask) hx.boundary hk).1 _ rfl hdeep
    · exact ih y hcall (hcall.placed F hid hx) (hcall.ample h F hid hx hample) hy

/-- A parse is not stopped by a limit that allows for all ranks at each position of the input. -/
theorem Parser.parse_not_tooDeep {p : Parser} (h : Ranked p.rules sure rank bound)
    (F : Family p.rules member) (hid : Identified member) (hroot : member p.root)
    (options : Options) (input : List Char)
    (hlimit : bound * (Text.width input + 1) ≤ options.maxDepth) :
    Outcome.Settled (p.parse options input) := by
  intro e he hdeep
  have hstart : (p.start options input).Placed p.rules options.maxDepth input member :=
    ⟨Text.fromBoundary?_zero input, Memo.sound_empty _, List.forall_mem_singleton.mpr hroot⟩
  have hample : (p.start options input).Ample sure rank bound input := by
    have hlead : (Task.run p.root).lead sure rank ≤ bound := Task.lead_le h.bounded _
    show (Task.run p.root).lead sure rank + bound * (Text.width input - 0) ≤ options.maxDepth
    rw [Nat.mul_succ] at hlimit
    rw [Nat.sub_zero]
    omega
  rw [p.parse_eq] at he
  cases hroot : (p.matchAt options.maxDepth 0 input (.empty options.memoize)).1 with
  | ok s =>
    rw [hroot] at he
    rcases options.complete_ok input s with hs | ⟨-, hs⟩ <;> rw [hs] at he <;> cases he
    exact hdeep
  | error e' =>
    rw [hroot, Options.complete_error] at he
    obtain rfl := Except.error.inj he
    exact hample.settled h F hid hstart e' (failure?_eq_some.mpr hroot) hdeep

/-! ## Active rules -/

/-- How many rules are entered at a position in the course of some frames. -/
def entriesAt (q : Nat) : List Frame → Nat
  | [] => 0
  | x :: frames => (if x.pos = q then x.task.entries else 0) + entriesAt q frames

/-- A rule that is entered in the course of a parse has a rank. -/
theorem Calls.entries_le_lead (h : Ranked rules sure rank bound) {x y : Frame}
    (hcall : Calls rules limit x y) : y.task.entries ≤ y.task.lead sure rank := by
  cases hcall with
  | rule hbody => exact Nat.lt_of_le_of_lt (Nat.zero_le _) (h.lead hbody)
  | _ => exact Nat.zero_le _

/-- A frame and those that it leads to, one through the other, enter no more rules at a position than
there are ranks below that of the frame, or below all ranks if the position lies further on. -/
theorem entriesAt_le_lead (h : Ranked rules sure rank bound) (F : Family rules member)
    (hid : Identified member) (q : Nat) {x : Frame} {frames : List Frame}
    (hchain : List.IsChain (Calls rules limit) (x :: frames))
    (hx : x.Placed rules limit input member)
    (hentries : x.task.entries ≤ x.task.lead sure rank) :
    entriesAt q (x :: frames) ≤
      if x.pos = q then x.task.lead sure rank else if x.pos < q then bound else 0 := by
  rw [entriesAt]
  induction frames generalizing x with
  | nil =>
    show (if x.pos = q then x.task.entries else 0) + 0 ≤ _
    split
    · exact hentries
    · exact Nat.zero_le _
  | cons y frames ih =>
    obtain ⟨hcall, hchain⟩ := List.isChain_cons_cons.mp hchain
    have hrest := ih hchain (hcall.placed F hid hx) (hcall.entries_le_lead h)
    have hlead : y.task.lead sure rank ≤ bound := y.task.lead_le h.bounded
    rw [entriesAt]
    obtain ⟨-, ⟨hpos, hdown⟩ | ⟨hlt, hnone⟩⟩ := hcall.descends h F hid hx
    · rw [hpos] at hrest ⊢
      split at hrest <;> split <;> omega
    · rw [hnone, ite_self, Nat.zero_add]
      refine Nat.le_trans hrest ?_
      by_cases hq : y.pos ≤ q
      · rw [if_neg (show x.pos ≠ q by omega), if_pos (show x.pos < q by omega)]
        split
        · exact hlead
        · split
          · exact Nat.le_refl _
          · exact Nat.zero_le _
      · -- the position has been passed
        rw [if_neg (show y.pos ≠ q by omega), if_neg (show ¬ y.pos < q by omega)]
        exact Nat.zero_le _

/-- At no moment of a parse are more rules active at one position than there are ranks. -/
theorem Parser.entriesAt_le {p : Parser} (h : Ranked p.rules sure rank bound)
    (F : Family p.rules member) (hid : Identified member) (hroot : member p.root)
    (options : Options) (input : List Char) {frames : List Frame}
    (hchain : List.IsChain (Calls p.rules options.maxDepth) (p.start options input :: frames))
    (q : Nat) : entriesAt q (p.start options input :: frames) ≤ bound := by
  have hstart : (p.start options input).Placed p.rules options.maxDepth input member :=
    ⟨Text.fromBoundary?_zero input, Memo.sound_empty _, List.forall_mem_singleton.mpr hroot⟩
  refine Nat.le_trans (entriesAt_le_lead h F hid q hchain hstart (Nat.zero_le _)) ?_
  split
  · exact Task.lead_le h.bounded _
  · split
    · exact Nat.le_refl _
    · exact Nat.zero_le _

/-- Whether the ranks of all rules are in order. -/
def rankedBy (rules : Rules) (sure : Nat → Bool) (rank : Nat → Nat) : Bool :=
  (List.range rules.size).all fun slot => (rules[slot]?).join.all fun body =>
    body.outline.takes sure && decide (body.lead sure rank < rank slot)

theorem ranked_of_rankedBy (h : rankedBy rules sure rank = true) (hbound : ∀ slot, rank slot ≤ bound) :
    Ranked rules sure rank bound := by
  have hbody {slot : Nat} {body : Matcher} (hslot : (rules[slot]?).join = some body) :
      body.outline.takes sure = true ∧ body.lead sure rank < rank slot := by
    have hlt : slot < rules.size := by
      refine Nat.lt_of_not_le fun hle => ?_
      rw [Array.getElem?_eq_none hle] at hslot
      cases hslot
    have hrank := List.all_eq_true.mp h slot (List.mem_range.mpr hlt)
    rw [hslot, Option.all_some, Bool.and_eq_true, decide_eq_true_eq] at hrank
    exact hrank
  exact ⟨fun _ hslot => (hbody hslot).1, fun hslot => (hbody hslot).2, hbound⟩

end Ranked

end Typestrip.Grammar
