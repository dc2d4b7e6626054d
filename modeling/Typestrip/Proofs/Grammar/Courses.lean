import Typestrip.Proofs.Grammar.Evaluations
import Typestrip.Proofs.Grammar.Outlines

/-!
# Runs that follow a course

A course tells what is matched and where, before anything is run. All that a run does lies on the
course of what is to be matched (`Calls.along`). So the memo learns something only about the nodes and
the places on the course (`Memo.Confined`), and where the course enters no rules, the run has no fatal
failure.

Main statements: `ask_along`, what comes of asking for a node whose course is known, and
`ask_without_rules`, that something comes of it where no rules are entered.
-/

namespace Typestrip.Grammar

variable {rules : Rules} {limit : Nat} {input : List Char} {member near : Matcher → Prop}
  {bodies : Nat → Option Outline} {place : List Char → Prop}

/-- The nodes near a course: with a node its parts, and with a rule that can be entered its body. -/
structure Vicinity (rules : Rules) (bodies : Nat → Option Outline) (near : Matcher → Prop) :
    Prop where
  rule : ∀ {slot o}, bodies slot = some o → outlineOf rules slot = some o
  children : ∀ {m c}, near m → c ∈ m.children → near c
  body : ∀ {slot o m}, bodies slot = some o → (rules[slot]?).join = some m → near m

/-- What there is to do has a course. -/
def Task.Along (bodies : Nat → Option Outline) (place : List Char → Prop) :
    Task → List Char → Prop
  | run m, cs | ask m, cs | evaluate m, cs => ∃ r, Course bodies place m.outline cs r
  | parts ms _, cs => ∃ r, Course bodies place (.sequence (Matcher.outlineAll ms)) cs r
  | alternatives ms _, cs => ∃ r, Course bodies place (.choice (Matcher.outlineAll ms)) cs r
  | rounds child _, cs => ∃ r, Course bodies place (.repetition child.outline) cs r
  | enter slot, cs => ∃ o r, bodies slot = some o ∧ Course bodies place o cs r

/-- A moment that lies on a course. -/
structure Frame.Along (bodies : Nat → Option Outline) (place : List Char → Prop)
    (near : Matcher → Prop) (x : Frame) : Prop where
  course : x.task.Along bodies place x.rest
  near : ∀ m ∈ x.task.nodes, near m
  place : place x.rest

/-- The course of a node is that of its construct. -/
theorem Attributes.course_of_outline {a : Attributes} {o : Outline} {cs : List Char}
    {r : Option (List Char)} (h : Course bodies place (a.outline o) cs r) :
    ∃ r', Course bodies place o cs r' := by
  have hnullable : ∀ {r}, Course bodies place (if a.nullable then .optional o else o) cs r →
      ∃ r', Course bodies place o cs r' := by
    intro r h
    split at h
    · cases h with
      | optional h => exact ⟨_, h⟩
      | skipped h => exact ⟨_, h⟩
    · exact ⟨r, h⟩
  rw [outline] at h
  split at h
  · exact hnullable (course_kept_iff.mp h)
  · exact hnullable h

theorem Vicinity.leaves (V : Vicinity rules bodies near) {o : Outline} {cs : List Char}
    {r : Option (List Char)} (h : Course bodies place o cs r) : Leaves (outlineOf rules) o cs r :=
  h.mono V.rule fun _ => trivial

/-- A match without a memo ends where the course does. -/
theorem Vicinity.eq_some_of_plain (V : Vicinity rules bodies near) {m : Matcher} {cs : List Char}
    {r : Option (List Char)} (h : Course bodies place m.outline cs r) {left pos : Nat} {s : Success}
    (hplain : m.plain rules limit left pos cs = .ok s) :
    r = some (Text.dropBytes cs s.consumed) := by
  obtain ⟨text, rest, rfl, hs, hread⟩ := Matcher.read_of_plain_ok hplain
  rw [hs, Text.dropBytes_width]
  exact (V.leaves h).unique (Matcher.leaves_of_read_matched hread)

theorem Vicinity.eq_none_of_plain (V : Vicinity rules bodies near) {m : Matcher} {cs : List Char}
    {r : Option (List Char)} (h : Course bodies place m.outline cs r) {left pos : Nat}
    {e : ParseError} (hplain : m.plain rules limit left pos cs = .error e)
    (he : e.isFatal = false) : r = none :=
  (V.leaves h).unique (Matcher.leaves_of_read_failed (Matcher.read_of_plain_error hplain he))

/-- What is called lies on the course. -/
theorem Calls.along (V : Vicinity rules bodies near) (F : Family rules member)
    (hid : Identified member) {x y : Frame} (h : Calls rules limit x y)
    (hplaced : x.Placed rules limit input member) (hx : x.Along bodies place near) :
    y.Along bodies place near := by
  obtain ⟨hpos, hsound, hnodes⟩ := hplaced
  obtain ⟨hcourse, hnear, hplace⟩ := hx
  cases h with
  | runTerminal | runOther | ask => exact ⟨hcourse, hnear, hplace⟩
  | sequence | choice | repetition =>
    obtain ⟨r, hcourse⟩ := hcourse
    rw [Matcher.outline] at hcourse
    exact ⟨Attributes.course_of_outline hcourse,
      fun c hc => V.children (hnear _ (List.mem_singleton_self _)) hc, hplace⟩
  | part =>
    obtain ⟨r, hcourse⟩ := hcourse
    refine ⟨?_, List.forall_mem_singleton.mpr (hnear _ List.mem_cons_self), hplace⟩
    cases hcourse with
    | part h => exact ⟨_, h⟩
    | partFailed h => exact ⟨_, h⟩
  | @partMatched m ms fields left pos rest memo s memo' hhead =>
    obtain ⟨r, hcourse⟩ := hcourse
    obtain ⟨-, n, hplain⟩ :=
      exists_plain_of_ask F hid (hnodes m List.mem_cons_self) hpos hsound hhead (.ok s)
    cases hcourse with
    | part h hmid hs =>
      obtain rfl := Option.some.inj (V.eq_some_of_plain h hplain)
      exact ⟨⟨r, hs⟩, fun c hc => hnear c (List.mem_cons_of_mem _ hc), hmid⟩
    | partFailed h => cases V.eq_some_of_plain h hplain
  | alternative =>
    obtain ⟨r, hcourse⟩ := hcourse
    refine ⟨?_, List.forall_mem_singleton.mpr (hnear _ List.mem_cons_self), hplace⟩
    cases hcourse with
    | alternative h => exact ⟨_, h⟩
    | otherwise h => exact ⟨_, h⟩
  | @alternativeFailed m ms failures left pos rest memo e memo' hhead hfatal =>
    obtain ⟨r, hcourse⟩ := hcourse
    obtain ⟨-, n, hplain⟩ := exists_plain_of_ask F hid (hnodes m List.mem_cons_self) hpos hsound
      hhead (.not_fatal hfatal)
    cases hcourse with
    | alternative h => cases V.eq_none_of_plain h hplain hfatal
    | otherwise _ hs =>
      exact ⟨⟨r, hs⟩, fun c hc => hnear c (List.mem_cons_of_mem _ hc), hplace⟩
  | round =>
    obtain ⟨r, hcourse⟩ := hcourse
    refine ⟨?_, hnear, hplace⟩
    cases hcourse with
    | round h => exact ⟨_, h⟩
    | idle h => exact ⟨_, h⟩
    | stop h => exact ⟨_, h⟩
  | @roundMatched child items left pos c cs memo s n memo' hhead hs =>
    obtain ⟨r, hcourse⟩ := hcourse
    obtain ⟨-, k, hplain⟩ := exists_plain_of_run F hid (hnodes child (List.mem_singleton_self child))
      hpos hsound hhead (.ok s)
    cases hcourse with
    | round h hlt hmid hrounds =>
      obtain rfl := Option.some.inj (V.eq_some_of_plain h hplain)
      rw [hs] at hmid hrounds
      exact ⟨⟨r, hrounds⟩, hnear, hmid⟩
    | idle h =>
      -- the round has taken something
      have hrest := Option.some.inj (V.eq_some_of_plain h hplain)
      have hlt := Text.length_dropBytes_lt c cs n
      rw [hs] at hrest
      rw [← hrest] at hlt
      exact absurd hlt (Nat.lt_irrefl _)
    | stop h => cases V.eq_some_of_plain h hplain
  | rule hbody =>
    obtain ⟨r, hcourse⟩ := hcourse
    rw [Matcher.outline] at hcourse
    obtain ⟨r', hcourse⟩ := Attributes.course_of_outline hcourse
    refine ⟨?_, fun m hm => absurd hm List.not_mem_nil, hplace⟩
    cases hcourse with
    | rule hslot h => exact ⟨_, r', hslot, h⟩
  | @enter slot body left pos rest memo hbody =>
    obtain ⟨o, r, hslot, hcourse⟩ := hcourse
    refine ⟨⟨r, ?_⟩, List.forall_mem_singleton.mpr (V.body hslot hbody), hplace⟩
    obtain ⟨body', hbody', rfl⟩ := Option.map_eq_some_iff.mp (V.rule hslot)
    obtain rfl := Option.some.inj (hbody.symm.trans hbody')
    exact hcourse

theorem Frame.Along.reached (V : Vicinity rules bodies near) (F : Family rules member)
    (hid : Identified member) {x y : Frame} (hx : x.Along bodies place near)
    (hplaced : x.Placed rules limit input member)
    (h : Relation.ReflTransGen (Calls rules limit) x y) : y.Along bodies place near := by
  induction h with
  | refl => exact hx
  | tail hreach hcall ih => exact hcall.along V F hid (hplaced.reached F hid hreach) ih

/-! ## What a memo gains -/

/-- All that is known afterwards was known before, or is among some keys. -/
structure Memo.Gains (memo : Memo) (keys : List Key) (memo' : Memo) : Prop where
  enabled : memo'.enabled = memo.enabled
  knows : ∀ {id pos o}, memo'.knows id pos = some o →
    memo.knows id pos = some o ∨ (id, pos) ∈ keys

theorem Passes.gains {memo memo' : Memo} {ys : List Frame} (h : Passes rules limit memo ys memo')
    (hys : ∀ y ∈ ys, y.memo.Gains (y.evaluations rules limit) (y.after rules limit)) :
    memo.Gains (ys.flatMap (Frame.evaluations rules limit)) memo' := by
  induction h with
  | nil => exact ⟨rfl, .inl⟩
  | cons _ ih =>
    obtain ⟨hy, hys⟩ := List.forall_mem_cons.mp hys
    have hrest := ih hys
    refine ⟨hrest.enabled.trans hy.enabled, fun hk => ?_⟩
    rw [List.flatMap_cons, List.mem_append]
    rcases hrest.knows hk with hk | hmem
    · exact (hy.knows hk).imp_right .inl
    · exact .inr (.inr hmem)

/-- What a frame adds to the memo is what is evaluated in its course. -/
theorem Frame.gains (x : Frame) : x.memo.Gains (x.evaluations rules limit) (x.after rules limit) := by
  induction x using (calls_wellFounded rules limit).induction with
  | _ x ih =>
    have hcalls : ∀ y ∈ x.calls rules limit,
        y.memo.Gains (y.evaluations rules limit) (y.after rules limit) :=
      fun y hy => ih y (calls_of_mem hy)
    rw [evaluations_eq]
    by_cases hask : ∃ m, x.task = .ask m
    · obtain ⟨m, htask⟩ := hask
      obtain ⟨task, left, pos, rest, memo⟩ := x
      obtain rfl : task = .ask m := htask
      cases hk : memo.knows m.attributes.id pos with
      | some o =>
        simp only [Frame.after, memoized_of_knows hk]
        exact ⟨(memo.find_snd _ _).1, fun h => .inl (by rwa [Memo.knows_find] at h)⟩
      | none =>
        rw [calls_of_not_knows hk] at hcalls ⊢
        have hinside := hcalls _ (List.mem_singleton_self _)
        simp only [Frame.misses, hk, Frame.after, memoized_of_not_knows hk, Option.isNone_none,
          if_true, List.flatMap_cons, List.flatMap_nil, List.append_nil, List.singleton_append]
        refine ⟨?_, fun {id' pos' o} h => ?_⟩
        · rw [Memo.enabled_insert]
          exact hinside.enabled.trans (memo.find_snd _ _).1
        · rw [Memo.knows_insert] at h
          split at h
          · next hkey => exact .inr (by rw [hkey.2]; exact List.mem_cons_self)
          · rcases hinside.knows h with h | hmem
            · exact .inl (by rwa [Memo.knows_find] at h)
            · exact .inr (List.mem_cons_of_mem _ hmem)
    · have hnone : x.misses = [] := List.eq_nil_iff_forall_not_mem.mpr fun key hkey =>
        hask ((mem_misses.mp hkey).imp fun m h => h.1)
      rw [hnone, List.nil_append]
      exact (Frame.passes fun m h => hask ⟨m, h⟩).gains hcalls

/-- A sound memo that knows nothing but nodes near a course at places on it. -/
structure Memo.Confined (rules : Rules) (limit : Nat) (input : List Char) (member near : Matcher → Prop)
    (place : List Char → Prop) (memo : Memo) : Prop where
  sound : memo.Sound rules limit input member
  known : ∀ {id pos o}, memo.knows id pos = some o → ∃ m, member m ∧ m.attributes.id = id ∧ near m ∧
    ∃ rest, Text.fromBoundary? input pos = some rest ∧ place rest

theorem Memo.confined_empty (enabled : Bool) :
    (Memo.empty enabled).Confined rules limit input member near place :=
  ⟨Memo.sound_empty enabled, fun hk => by simp at hk⟩

theorem Memo.Confined.find {memo : Memo} (h : memo.Confined rules limit input member near place)
    (id : NodeId) (pos : Nat) :
    (memo.find id pos).2.Confined rules limit input member near place :=
  ⟨Memo.Sound.find h.sound id pos, fun hk => h.known (by rwa [Memo.knows_find] at hk)⟩

theorem Memo.Confined.mono {near' : Matcher → Prop} {memo : Memo}
    (h : memo.Confined rules limit input member near place) (hnear : ∀ {m}, near m → near' m) :
    memo.Confined rules limit input member near' place :=
  ⟨h.sound, fun hk => by
    obtain ⟨m, hm, hid, hm', hplace⟩ := h.known hk
    exact ⟨m, hm, hid, hnear hm', hplace⟩⟩

/-- A frame adds nothing but nodes near its course at places on it. -/
theorem Frame.Along.known (V : Vicinity rules bodies near) (F : Family rules member)
    (hid : Identified member) {x : Frame} (hx : x.Along bodies place near)
    (hplaced : x.Placed rules limit input member)
    (hmemo : x.memo.Confined rules limit input member near place) {id : NodeId} {pos : Nat}
    {o : Outcome} (hk : (x.after rules limit).knows id pos = some o) :
    ∃ m, member m ∧ m.attributes.id = id ∧ near m ∧
      ∃ rest, Text.fromBoundary? input pos = some rest ∧ place rest := by
  rcases x.gains.knows hk with hk | hkey
  · exact hmemo.known hk
  · obtain ⟨y, hreach, hy⟩ := Frame.mem_evaluations.mp hkey
    obtain ⟨m, htask, -, hsame⟩ := Frame.mem_misses.mp hy
    obtain ⟨rfl, rfl⟩ := Prod.mk.inj hsame
    have hplaced' := hplaced.reached F hid hreach
    have halong := hx.reached V F hid hplaced hreach
    refine ⟨m, hplaced'.asked htask, rfl, halong.near m ?_, y.rest, hplaced'.boundary, halong.place⟩
    rw [htask]
    exact List.mem_singleton_self m

/-! ## Asking for a node whose course is known -/

theorem Outcome.Settled.of_not_fatal {o : Outcome} (h : ∀ e, o = .error e → e.isFatal = false) :
    Outcome.Settled o := fun e he hdeep =>
  Bool.false_ne_true ((h e he).symm.trans hdeep.isFatal)

section Asking

variable {m : Matcher} {left pos : Nat} {rest : List Char} {memo memo' : Memo} {o : Outcome}
  {r : Option (List Char)}

/-- What comes of asking for a node whose course is known, if it is not a fatal failure. -/
theorem ask_along (V : Vicinity rules bodies near) (F : Family rules member)
    (hid : Identified member) (hm : member m) (hnear : near m) (hplace : place rest)
    (hpos : Text.fromBoundary? input pos = some rest)
    (hmemo : memo.Confined rules limit input member near place)
    (hcourse : Course bodies place m.outline rest r)
    (h : memoized m.attributes.id (m.evaluate rules (enter rules limit left)) pos rest memo =
      (o, memo')) (ho : ∀ e, o = .error e → e.isFatal = false) :
    memo'.Confined rules limit input member near place ∧ memo'.enabled = memo.enabled ∧
      ((∃ s n, o = .ok s ∧ m.plain rules limit n pos rest = o ∧
          r = some (Text.dropBytes rest s.consumed)) ∨
        ∃ e, o = .error e ∧ r = none) := by
  have hplaced : Frame.Placed rules limit input member ⟨.ask m, left, pos, rest, memo⟩ :=
    ⟨hpos, hmemo.sound, List.forall_mem_singleton.mpr hm⟩
  have halong : Frame.Along bodies place near ⟨.ask m, left, pos, rest, memo⟩ :=
    ⟨⟨r, hcourse⟩, List.forall_mem_singleton.mpr hnear, hplace⟩
  obtain ⟨hsound, n, hplain⟩ :=
    exists_plain_of_ask F hid hm hpos hmemo.sound h (.of_not_fatal ho)
  have hafter : Frame.after rules limit ⟨.ask m, left, pos, rest, memo⟩ = memo' := by
    simp only [Frame.after, h]
  refine ⟨⟨hsound, fun hk => halong.known V F hid hplaced hmemo (hafter ▸ hk)⟩, ?_, ?_⟩
  · rw [← hafter]
    exact (Frame.gains ⟨.ask m, left, pos, rest, memo⟩).enabled
  · cases o with
    | ok s => exact .inl ⟨s, n, rfl, hplain, V.eq_some_of_plain hcourse hplain⟩
    | error e => exact .inr ⟨e, rfl, V.eq_none_of_plain hcourse hplain (ho e rfl)⟩

end Asking

/-! ## Courses that enter no rules -/

/-- A memo that is switched off stays so. -/
theorem evaluate_off_snd (m : Matcher) (left pos : Nat) (rest : List Char) :
    (m.evaluate rules (enter rules limit left) pos rest .off).2 = .off := by
  obtain ⟨o, ho, -⟩ := tells_evaluate (fun _ => tells_enter rules limit left _) m pos rest
  rw [ho]

theorem Calls.off {x y : Frame} (h : Calls rules limit x y) (hx : x.memo = .off) : y.memo = .off := by
  have hask {m : Matcher} {left pos : Nat} {rest : List Char} {o : Outcome} {memo' : Memo}
      (h : memoized m.attributes.id (m.evaluate rules (Grammar.enter rules limit left)) pos rest
        .off = (o, memo')) : memo' = .off := by
    rw [ask_off, evaluate_off_snd] at h
    exact (congrArg Prod.snd h).symm
  cases h with
  | runTerminal | runOther | sequence | part | choice | alternative | repetition | round | rule
    | enter => exact hx
  | ask hfind =>
    obtain rfl := congrArg Prod.snd hfind
    obtain rfl : _ = Memo.off := hx
    rfl
  | partMatched hhead | alternativeFailed hhead =>
    obtain rfl : _ = Memo.off := hx
    exact hask hhead
  | roundMatched hhead =>
    obtain rfl : _ = Memo.off := hx
    unfold Matcher.run at hhead
    split at hhead
    · exact hask hhead
    · exact (congrArg Prod.snd hhead).symm.trans (evaluate_off_snd _ _ _ _)

/-- Without a memo there is no fatal failure on a course that enters no rules. -/
theorem Frame.Along.not_isFatal (V : Vicinity rules (fun _ => none) near) (F : Family rules member)
    (hid : Identified member) {x : Frame} (hx : x.Along (fun _ => none) place near)
    (hplaced : x.Placed rules limit input member) (hoff : x.memo = .off) {e : ParseError}
    (h : x.failure rules limit = some e) : e.isFatal = false := by
  induction x using (calls_wellFounded rules limit).induction with
  | _ x ih =>
    by_contra hfatal
    rcases Frame.exists_call_of_isFatal (Bool.of_not_eq_false hfatal) h with
      hraised | ⟨m, -, hk⟩ | ⟨y, hcall, hy⟩
    · cases hraised with
      | tooDeep =>
        obtain ⟨o, r, hslot, -⟩ := hx.course
        cases hslot
      | unresolved =>
        obtain ⟨r, hcourse⟩ := hx.course
        rw [Matcher.outline] at hcourse
        obtain ⟨r', hcourse⟩ := Attributes.course_of_outline hcourse
        cases hcourse with
        | rule hslot => cases hslot
    · rw [hoff] at hk
      simp at hk
    · exact hfatal (ih y hcall (hcall.along V F hid hplaced hx) (hcall.placed F hid hplaced)
        (hcall.off hoff) hy)

/-- What a sound memo gives is not fatal, if what comes without a memo is not. -/
theorem isFatal_of_ask (F : Family rules member) (hid : Identified member) {m : Matcher}
    (hm : member m) {left pos : Nat} {rest : List Char}
    (hpos : Text.fromBoundary? input pos = some rest) {memo : Memo}
    (hmemo : memo.Sound rules limit input member)
    (hplain : ∀ e, m.plain rules limit left pos rest = .error e → e.isFatal = false) {e : ParseError}
    (h : (memoized m.attributes.id (m.evaluate rules (enter rules limit left)) pos rest memo).1 =
      .error e) : e.isFatal = false := by
  have hset : Outcome.Settled (m.plain rules limit left pos rest) := .of_not_fatal hplain
  have hside : (plainAndMemo rules limit input member).SideBySide rules member
      (enter rules limit left) (enter rules limit left) := plainAndMemo_sideBySide F hid limit left
  have hagree := hside.ask hm (Simulation.evaluate_follows F hside hm) hpos ⟨rfl, hmemo⟩
  rw [ask_off_of_settled hpos hset] at hagree
  obtain ⟨hsame, -⟩ := Simulation.Agree.eq_of_settled hagree hset
  exact hplain e (hsame.symm.trans h)

section Calm

variable {m : Matcher} {left pos : Nat} {rest : List Char} {r : Option (List Char)} {e : ParseError}

/-- A node whose course enters no rules has no fatal failure. -/
theorem plain_without_rules (V : Vicinity rules (fun _ => none) near) (F : Family rules member)
    (hid : Identified member) (hm : member m) (hnear : near m) (hplace : place rest)
    (hpos : Text.fromBoundary? input pos = some rest)
    (hcourse : Course (fun _ => none) place m.outline rest r)
    (h : m.plain rules limit left pos rest = .error e) : e.isFatal = false := by
  have halong : Frame.Along (fun _ => none) place near ⟨.ask m, left, pos, rest, .off⟩ :=
    ⟨⟨r, hcourse⟩, List.forall_mem_singleton.mpr hnear, hplace⟩
  have hplaced : Frame.Placed rules limit input member ⟨.ask m, left, pos, rest, .off⟩ :=
    ⟨hpos, Memo.sound_empty false, List.forall_mem_singleton.mpr hm⟩
  refine halong.not_isFatal V F hid hplaced rfl ?_
  simp only [Frame.failure, ask_off, h, failure?_error]

/-- A rule that can be entered has no fatal failure if its body has none. -/
theorem plain_rule (a : Attributes) (name : String) {slot : Nat} {body : Matcher}
    (hslot : (rules[slot]?).join = some body) (hterminal : body.isTerminal = false)
    (hbody : ∀ e, body.plain rules limit left pos rest = .error e → e.isFatal = false)
    (h : (Matcher.rule a name (some slot)).plain rules limit (left + 1) pos rest = .error e) :
    e.isFatal = false := by
  have hslot' : ((some slot).bind fun i => (rules[i]?).join) = some body := by
    rw [Option.bind_some, hslot]
  rw [Matcher.plain, Matcher.evaluate_rule _ _ _ _ _ _ _ hslot'] at h
  have hfailed := failure?_of_finish ((congrArg failure? h).trans (failure?_error e))
  rw [enter, Matcher.run, hterminal] at hfailed
  exact hbody e (failure?_eq_some.mp hfailed)

end Calm

end Typestrip.Grammar
