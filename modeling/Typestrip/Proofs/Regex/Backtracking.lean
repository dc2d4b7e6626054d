import Mathlib.Data.List.Basic
import Typestrip.Regex.Expr

/-!
# Matching as backtracking

`Expr.ends` lists where the matches of an expression can end, in the order in which trying one thing
after the other would find them. Threads are carried through a text all at once instead, and what they
find is the first of these ends (`Expr.match?_eq`): dropping threads that stand further to the front
already, and giving up those behind a complete one, loses nothing that comes first.
-/

namespace Typestrip.Regex

/-- A place in a text: the character in front of it, and what stands from there on. -/
abbrev Spot := Option Char × List Char

/-- The conditions on a place see the characters on its two sides. -/
def Spot.place (x : Spot) : Place := ⟨x.1, x.2.head?⟩

/-- Where any number of rounds can end, with at most `n` rounds that take something. A round that takes
nothing is the last one. -/
def rounds (greedy : Bool) (once : Spot → List Spot) : (n : Nat) → Spot → List Spot
  | 0, x => [x]
  | n + 1, x =>
    let more := (once x).flatMap fun y =>
      if y.2.length < x.2.length then rounds greedy once n y else [y]
    if greedy then more ++ [x] else x :: more

/-- Where the matches of an expression can end, in order of preference. -/
def Expr.ends : Expr → Spot → List Spot
  | empty, x => [x]
  | chars _, (_, []) => []
  | chars s, (_, c :: cs) => if s.holds c then [(some c, cs)] else []
  | look l, x => if l.holds x.place then [x] else []
  | seq a b, x => (a.ends x).flatMap b.ends
  | alt a b, x => a.ends x ++ b.ends x
  | star greedy a, x => rounds greedy a.ends (x.2.length + 1) x

/-- Where the matches of expressions in a row can end. -/
def endsAll : List Expr → Spot → List Spot
  | [], x => [x]
  | e :: es, x => (e.ends x).flatMap (endsAll es)

/-! ## What lies between the ends -/

/-- Passing some characters leads from one place to another. -/
def Spot.Leads (x : Spot) (cs : List Char) (y : Spot) : Prop :=
  x.2 = cs ++ y.2 ∧ y.1 = cs.getLast?.or x.1

namespace Spot

variable {x y z : Spot} {cs ds : List Char}

theorem leads_refl (x : Spot) : x.Leads [] x := ⟨rfl, rfl⟩

theorem Leads.trans (h : x.Leads cs y) (h' : y.Leads ds z) : x.Leads (cs ++ ds) z := by
  refine ⟨by rw [h.1, h'.1, List.append_assoc], ?_⟩
  rw [h'.2, h.2, List.getLast?_append, Option.or_assoc]

theorem Leads.length (h : x.Leads cs y) : x.2.length = cs.length + y.2.length := by
  rw [h.1, List.length_append]

/-- Where nothing is passed, the place stays the same. -/
theorem Leads.eq_of_not_lt (h : x.Leads cs y) (hlt : ¬ y.2.length < x.2.length) : y = x := by
  have hlength := h.length
  obtain rfl : cs = [] := List.length_eq_zero_iff.mp (by omega)
  exact Prod.ext h.2 h.1.symm

end Spot

theorem exists_leads_of_rounds {greedy : Bool} {once : Spot → List Spot}
    (honce : ∀ x, ∀ y ∈ once x, ∃ cs, x.Leads cs y) {n : Nat} {x y : Spot}
    (h : y ∈ rounds greedy once n x) : ∃ cs, x.Leads cs y := by
  induction n generalizing x with
  | zero =>
    obtain rfl := List.mem_singleton.mp h
    exact ⟨[], y.leads_refl⟩
  | succ n ih =>
    have hcases : y = x ∨ ∃ z ∈ once x,
        y ∈ if z.2.length < x.2.length then rounds greedy once n z else [z] := by
      cases greedy <;> simpa [rounds, or_comm] using h
    rcases hcases with rfl | ⟨z, hz, hy⟩
    · exact ⟨[], y.leads_refl⟩
    · obtain ⟨cs, hcs⟩ := honce x z hz
      split at hy
      · obtain ⟨ds, hds⟩ := ih hy
        exact ⟨cs ++ ds, hcs.trans hds⟩
      · obtain rfl := List.mem_singleton.mp hy
        exact ⟨cs, hcs⟩

theorem Expr.exists_leads {e : Expr} {x y : Spot} (h : y ∈ e.ends x) : ∃ cs, x.Leads cs y := by
  induction e generalizing x y with
  | empty =>
    obtain rfl := List.mem_singleton.mp h
    exact ⟨[], y.leads_refl⟩
  | chars s =>
    obtain ⟨before, _ | ⟨c, cs⟩⟩ := x
    · cases h
    · rw [ends] at h
      split at h
      · obtain rfl := List.mem_singleton.mp h
        exact ⟨[c], rfl, rfl⟩
      · cases h
  | look l =>
    rw [ends] at h
    split at h
    · obtain rfl := List.mem_singleton.mp h
      exact ⟨[], y.leads_refl⟩
    · cases h
  | seq a b iha ihb =>
    obtain ⟨z, hz, hy⟩ := List.mem_flatMap.mp h
    obtain ⟨cs, hcs⟩ := iha hz
    obtain ⟨ds, hds⟩ := ihb hy
    exact ⟨cs ++ ds, hcs.trans hds⟩
  | alt a b iha ihb => exact (List.mem_append.mp h).elim iha ihb
  | star greedy a ih => exact exists_leads_of_rounds (fun _ _ => ih) h

theorem Expr.length_le_of_mem_ends {e : Expr} {x y : Spot} (h : y ∈ e.ends x) :
    y.2.length ≤ x.2.length := by
  obtain ⟨cs, hcs⟩ := exists_leads h
  rw [hcs.length]
  omega

theorem length_le_of_mem_endsAll {es : List Expr} {x y : Spot} (h : y ∈ endsAll es x) :
    y.2.length ≤ x.2.length := by
  induction es generalizing x with
  | nil =>
    obtain rfl := List.mem_singleton.mp h
    exact Nat.le_refl _
  | cons e es ih =>
    obtain ⟨z, hz, hy⟩ := List.mem_flatMap.mp h
    exact Nat.le_trans (ih hy) (Expr.length_le_of_mem_ends hz)

theorem Expr.eq_of_mem_ends {e : Expr} {x y : Spot} (h : y ∈ e.ends x)
    (hlt : ¬ y.2.length < x.2.length) : y = x := by
  obtain ⟨cs, hcs⟩ := exists_leads h
  exact hcs.eq_of_not_lt hlt

/-! ## Repetitions -/

/-- More rounds than there are characters make no difference. -/
theorem rounds_eq_of_lt {greedy : Bool} {once : Spot → List Spot} {n m : Nat} {x : Spot}
    (hn : x.2.length < n) (hm : x.2.length < m) :
    rounds greedy once n x = rounds greedy once m x := by
  induction n generalizing m x with
  | zero => omega
  | succ n ih =>
    obtain ⟨m, rfl⟩ := Nat.exists_eq_succ_of_ne_zero (Nat.ne_of_gt (Nat.zero_lt_of_lt hm))
    have hmore : (once x).flatMap (fun y =>
          if y.2.length < x.2.length then rounds greedy once n y else [y]) =
        (once x).flatMap fun y =>
          if y.2.length < x.2.length then rounds greedy once m y else [y] := by
      refine List.flatMap_congr fun y _ => ?_
      split
      · exact ih (by omega) (by omega)
      · rfl
    rw [rounds, rounds, hmore]

/-- A repetition is a round with further ones after it, or nothing. -/
theorem Expr.ends_star (greedy : Bool) (a : Expr) (x : Spot) :
    (star greedy a).ends x =
      let more := (a.ends x).flatMap fun y =>
        if y.2.length < x.2.length then (star greedy a).ends y else [y]
      if greedy then more ++ [x] else x :: more := by
  have hmore : (a.ends x).flatMap (fun y =>
        if y.2.length < x.2.length then rounds greedy a.ends x.2.length y else [y]) =
      (a.ends x).flatMap fun y =>
        if y.2.length < x.2.length then (star greedy a).ends y else [y] := by
    refine List.flatMap_congr fun y _ => ?_
    split
    · next hlt => exact rounds_eq_of_lt hlt (Nat.lt_succ_self _)
    · rfl
  rw [ends, rounds, hmore]

/-! ## Threads -/

/-- What is left of a text behind the matches of a thread. -/
def Thread.rests : Thread → List Char → List (List Char)
  | accept, cs => [cs]
  | await _ _, [] => []
  | await s next, c :: cs => if s.holds c then (endsAll next (some c, cs)).map (·.2) else []

/-- What is left behind the matches of threads in turn. -/
def restsOf (threads : List Thread) (cs : List Char) : List (List Char) :=
  threads.flatMap (·.rests cs)

@[simp] theorem restsOf_nil (cs : List Char) : restsOf [] cs = [] := rfl

@[simp] theorem restsOf_cons (t : Thread) (ts : List Thread) (cs : List Char) :
    restsOf (t :: ts) cs = t.rests cs ++ restsOf ts cs := rfl

@[simp] theorem restsOf_append (ts us : List Thread) (cs : List Char) :
    restsOf (ts ++ us) cs = restsOf ts cs ++ restsOf us cs := List.flatMap_append

theorem restsOf_prefer (greedy : Bool) (more fewer : List Thread) (cs : List Char) :
    restsOf (prefer greedy more fewer) cs =
      if greedy then restsOf more cs ++ restsOf fewer cs
      else restsOf fewer cs ++ restsOf more cs := by
  cases greedy <;> simp [prefer]

/-- The threads of an expression have passed the first character of its matches. Where a match takes
nothing, the threads are those of what follows. -/
theorem Expr.restsOf_threads (e : Expr) (x : Spot) (next : List Expr)
    (after : Unit → List Thread) :
    restsOf (e.threads x.place next after) x.2 = (e.ends x).flatMap fun y =>
      if y.2.length < x.2.length then (endsAll next y).map (·.2) else restsOf (after ()) x.2 := by
  induction e generalizing x next after with
  | empty => simp [threads, ends]
  | chars s =>
    obtain ⟨before, _ | ⟨c, cs⟩⟩ := x
    · rfl
    · by_cases hc : s.holds c = true <;> simp [threads, ends, Thread.rests, hc]
  | look l =>
    rw [threads, ends]
    split <;> simp
  | seq a b iha ihb =>
    rw [threads, iha, ends, List.flatMap_assoc]
    refine List.flatMap_congr fun y hy => ?_
    split
    · next hlt =>
      rw [endsAll, List.map_flatMap]
      refine List.flatMap_congr fun z hz => ?_
      rw [if_pos (Nat.lt_of_le_of_lt (length_le_of_mem_ends hz) hlt)]
    · next hlt =>
      rw [eq_of_mem_ends hy hlt]
      exact ihb x next after
  | alt a b iha ihb => rw [threads, restsOf_append, iha, ihb, ends, List.flatMap_append]
  | star greedy a ih =>
    have hstop : ([x] : List Spot).flatMap (fun y =>
        if y.2.length < x.2.length then (endsAll next y).map (·.2) else restsOf (after ()) x.2) =
        restsOf (after ()) x.2 := by simp
    have hmore : restsOf (a.threads x.place (star greedy a :: next) after) x.2 =
        ((a.ends x).flatMap fun y =>
          if y.2.length < x.2.length then (star greedy a).ends y else [y]).flatMap fun y =>
        if y.2.length < x.2.length then (endsAll next y).map (·.2)
        else restsOf (after ()) x.2 := by
      rw [ih, List.flatMap_assoc]
      refine List.flatMap_congr fun y hy => ?_
      split
      · next hlt =>
        rw [endsAll, List.map_flatMap]
        refine List.flatMap_congr fun z hz => ?_
        rw [if_pos (Nat.lt_of_le_of_lt (length_le_of_mem_ends hz) hlt)]
      · next hlt => simp [hlt]
    rw [threads, restsOf_prefer, ends_star, hmore]
    cases greedy <;> simp [hstop, List.flatMap_cons]

theorem restsOf_threadsOf (es : List Expr) (x : Spot) :
    restsOf (threadsOf x.place es) x.2 = (endsAll es x).map (·.2) := by
  induction es with
  | nil => rfl
  | cons e es ih =>
    rw [threadsOf, Expr.restsOf_threads, endsAll, List.map_flatMap]
    refine List.flatMap_congr fun y hy => ?_
    split
    · rfl
    · next hlt => rw [ih, Expr.eq_of_mem_ends hy hlt]

/-! ## Carrying threads through a text -/

theorem flatMap_filter_ne {α β : Type} [DecidableEq α] (f : α → List β) (a : α) (as : List α)
    (h : f a = []) : (as.filter (· ≠ a)).flatMap f = as.flatMap f := by
  induction as with
  | nil => rfl
  | cons b as ih =>
    by_cases hb : b = a
    · subst hb
      rw [List.filter_cons_of_neg (by simp), ih, List.flatMap_cons, h, List.nil_append]
    · rw [List.filter_cons_of_pos (by simp [hb]), List.flatMap_cons, ih, List.flatMap_cons]

/-- A thread that stands further to the front already finds nothing first. -/
theorem head?_restsOf_distinct (ts : List Thread) (cs : List Char) :
    (restsOf (distinct ts) cs).head? = (restsOf ts cs).head? := by
  induction ts with
  | nil => rfl
  | cons t ts ih =>
    rw [distinct, restsOf_cons, restsOf_cons, List.head?_append, List.head?_append, ← ih]
    cases ht : t.rests cs with
    | cons r rs => rfl
    | nil =>
      rw [restsOf, flatMap_filter_ne (·.rests cs) t _ ht]
      rfl

/-- What comes first of all threads comes from those in front of the first complete one, or else is
the place itself. -/
theorem head?_restsOf_untilAccept (ts : List Thread) (cs : List Char) :
    (restsOf ts cs).head? = (restsOf (untilAccept ts).1 cs).head?.or
      (if (untilAccept ts).2 then some cs else none) := by
  induction ts with
  | nil => rfl
  | cons t ts ih =>
    cases t with
    | accept => rfl
    | await s next =>
      have hcons : untilAccept (.await s next :: ts) =
          (.await s next :: (untilAccept ts).1, (untilAccept ts).2) := rfl
      rw [hcons, restsOf_cons, restsOf_cons, List.head?_append, List.head?_append, ih,
        Option.or_assoc]

theorem accept_not_mem_untilAccept (ts : List Thread) : .accept ∉ (untilAccept ts).1 := by
  induction ts with
  | nil => simp [untilAccept]
  | cons t ts ih =>
    cases t with
    | accept => simp [untilAccept]
    | await s next => simpa [untilAccept] using ih

/-- Threads that wait for a character go on behind it. -/
theorem restsOf_pass {ts : List Thread} (h : .accept ∉ ts) (c : Char) (cs : List Char) :
    restsOf (pass c ⟨some c, cs.head?⟩ ts) cs = restsOf ts (c :: cs) := by
  induction ts with
  | nil => rfl
  | cons t ts ih =>
    obtain ⟨ht, hts⟩ := not_or.mp (mt List.mem_cons.mpr h)
    cases t with
    | accept => exact absurd rfl ht
    | await s next =>
      rw [pass, restsOf_cons, Thread.rests, ← ih hts]
      split
      · rw [restsOf_append]
        exact congrArg (· ++ _) (restsOf_threadsOf next (some c, cs))
      · rfl

theorem length_le_of_mem_restsOf {ts : List Thread} {cs r : List Char} (h : r ∈ restsOf ts cs) :
    r.length ≤ cs.length := by
  obtain ⟨t, -, hr⟩ := List.mem_flatMap.mp h
  cases t with
  | accept =>
    obtain rfl := List.mem_singleton.mp hr
    exact Nat.le_refl _
  | await s next =>
    cases cs with
    | nil => cases hr
    | cons c cs =>
      rw [Thread.rests] at hr
      split at hr
      · obtain ⟨y, hy, rfl⟩ := List.mem_map.mp hr
        exact Nat.le_succ_of_le (length_le_of_mem_endsAll hy)
      · cases hr

/-- At the end of a text nothing that waits for a character finds anything. -/
theorem restsOf_nil_of_accept_not_mem {ts : List Thread} (h : .accept ∉ ts) :
    restsOf ts [] = [] := by
  refine List.flatMap_eq_nil_iff.mpr fun t ht => ?_
  cases t with
  | accept => exact absurd ht h
  | await => rfl

/-- A complete thread has passed as many characters as have been counted. -/
theorem map_or_eq_betterOf (accepted : Bool) (count : Nat) (best : Option Nat) (cs : List Char) :
    ((if accepted then some cs else none).map fun r : List Char =>
      count + (cs.length - r.length)).or best = betterOf accepted count best := by
  cases accepted <;> simp [betterOf]

theorem run_eq (ts : List Thread) (count : Nat) (best : Option Nat) (cs : List Char) :
    run ts count best cs =
      ((restsOf ts cs).head?.map fun r => count + (cs.length - r.length)).or best := by
  induction cs generalizing ts count best with
  | nil =>
    rw [run, ← head?_restsOf_distinct, head?_restsOf_untilAccept,
      restsOf_nil_of_accept_not_mem (accept_not_mem_untilAccept _)]
    exact (map_or_eq_betterOf ..).symm
  | cons c cs ih =>
    rw [run, ← head?_restsOf_distinct, head?_restsOf_untilAccept]
    have hpass := accept_not_mem_untilAccept (distinct ts)
    generalize untilAccept (distinct ts) = until_ at hpass ⊢
    obtain ⟨front, accepted⟩ := until_
    dsimp only at hpass ⊢
    split
    · next hempty =>
      rw [List.isEmpty_iff.mp hempty]
      exact (map_or_eq_betterOf ..).symm
    · rw [ih, Option.map_or, Option.or_assoc, map_or_eq_betterOf, ← restsOf_pass hpass]
      refine congrArg (Option.or · _) (Option.map_congr fun r hr => ?_)
      have hlength := length_le_of_mem_restsOf (List.mem_of_mem_head? hr)
      rw [List.length_cons]
      omega

/-- Of all ends of matches the first one is found. -/
theorem Expr.match?_eq (e : Expr) (before : Option Char) (cs : List Char) :
    e.match? before cs = (e.ends (before, cs)).head?.map fun y => cs.length - y.2.length := by
  have hthreads := restsOf_threadsOf [e] (before, cs)
  rw [show endsAll [e] (before, cs) = e.ends (before, cs) from List.flatMap_singleton' _] at hthreads
  rw [match?, run_eq, Option.or_none]
  show (restsOf (threadsOf (Spot.place (before, cs)) [e]) cs).head?.map _ = _
  rw [hthreads, List.head?_map, Option.map_map]
  simp only [Nat.zero_add]
  rfl

/-- A match that is searched for at the beginning of the text only. -/
theorem Expr.search?_anchored (e : Expr) (cs : List Char) :
    (seq (look .textStart) e).search? cs =
      (e.ends (none, cs)).head?.map fun y => cs.length - y.2.length := by
  have hends : (seq (look .textStart) e).ends (none, cs) = e.ends (none, cs) :=
    List.flatMap_singleton ..
  rw [search?, isAnchored, isAnchored, Bool.true_or, if_pos rfl, match?_eq, hends]

/-! ## Matches that take something -/

/-- Every match takes a character, as far as the parts of the expression tell. -/
def Expr.takes : Expr → Bool
  | chars _ => true
  | seq a b => a.takes || b.takes
  | alt a b => a.takes && b.takes
  | empty | look _ | star _ _ => false

theorem Expr.length_lt_of_takes {e : Expr} (he : e.takes = true) {x y : Spot} (h : y ∈ e.ends x) :
    y.2.length < x.2.length := by
  induction e generalizing x y with
  | empty | look | star => cases he
  | chars s =>
    obtain ⟨before, _ | ⟨c, cs⟩⟩ := x
    · cases h
    · rw [ends] at h
      split at h
      · obtain rfl := List.mem_singleton.mp h
        exact Nat.lt_succ_self _
      · cases h
  | seq a b iha ihb =>
    obtain ⟨z, hz, hy⟩ := List.mem_flatMap.mp h
    rcases Bool.or_eq_true_iff.mp he with ha | hb
    · exact Nat.lt_of_le_of_lt (length_le_of_mem_ends hy) (iha ha hz)
    · exact Nat.lt_of_lt_of_le (ihb hb hy) (length_le_of_mem_ends hz)
  | alt a b iha ihb =>
    obtain ⟨ha, hb⟩ := Bool.and_eq_true_iff.mp he
    exact (List.mem_append.mp h).elim (iha ha) (ihb hb)

theorem Expr.match?_pos {e : Expr} (he : e.takes = true) {before : Option Char} {cs : List Char}
    {n : Nat} (h : e.match? before cs = some n) : 0 < n := by
  rw [match?_eq] at h
  obtain ⟨y, hy, rfl⟩ := Option.map_eq_some_iff.mp h
  exact Nat.sub_pos_of_lt (length_lt_of_takes he (List.mem_of_mem_head? hy))

theorem Expr.lt_of_searchFrom {e : Expr} (he : e.takes = true) {before : Option Char} {count : Nat}
    {cs : List Char} {n : Nat} (h : e.searchFrom before count cs = some n) : count < n := by
  induction cs generalizing before count with
  | nil =>
    rw [searchFrom] at h
    obtain ⟨k, hk, rfl⟩ := Option.map_eq_some_iff.mp h
    exact Nat.lt_add_of_pos_right (match?_pos he hk)
  | cons c cs ih =>
    rw [searchFrom] at h
    split at h
    · next k hk =>
      rw [← Option.some.inj h]
      exact Nat.lt_add_of_pos_right (match?_pos he hk)
    · exact Nat.lt_of_succ_lt (ih h)

/-- What is found takes something. -/
theorem Expr.search?_pos {e : Expr} (he : e.takes = true) {cs : List Char} {n : Nat}
    (h : e.search? cs = some n) : 0 < n := by
  rw [search?] at h
  split at h
  · exact match?_pos he h
  · exact Nat.zero_lt_of_lt (lt_of_searchFrom he h)

end Typestrip.Regex
