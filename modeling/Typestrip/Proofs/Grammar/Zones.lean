import Typestrip.Proofs.Grammar.Outlines

/-!
# Zones of a text

Where a match can end is often told by where it begins: the places of a text fall into a few zones,
and for every zone and terminal it is known in which zones the matches end. A chart keeps that, and
what is claimed of the rules in the same way. Then it is computed for every node (`Outline.reach`):
the parts of a sequence are gone through in turn, the rounds of a repetition until no further zone is
reached. If the claims about the rules are borne out by their bodies, every match ends in one of the
zones that were computed (`Chart.Sound.within`).
-/

namespace Typestrip.Grammar

/-- The zones in which the matches of terminals and of rules end, by the zones in which they begin.
There are no more than `size` zones. Where a place is asked for that is not charted, nothing is
known. -/
structure Chart (Z : Type) where
  size : Nat
  terminal : Outline → Z → Option (List Z)
  rule : Nat → Z → Option (List Z)

/-- The text lies in one of some zones. -/
def Within {Z : Type} (holds : Z → List Char → Prop) (zs : List Z) (cs : List Char) : Prop :=
  ∃ z ∈ zs, holds z cs

variable {Z : Type} {holds : Z → List Char → Prop} {zs zs' : List Z} {cs : List Char}

theorem Within.mono (h : Within holds zs cs) (hsub : zs ⊆ zs') : Within holds zs' cs := by
  obtain ⟨z, hz, hcs⟩ := h
  exact ⟨z, hsub hz, hcs⟩

theorem within_singleton {z : Z} : Within holds [z] cs ↔ holds z cs := by
  simp [Within]

theorem within_pair {z z' : Z} : Within holds [z, z'] cs ↔ holds z cs ∨ holds z' cs := by
  simp [Within]

variable [DecidableEq Z]

/-- What is reached from any of some zones. -/
def spread (f : Z → Option (List Z)) : List Z → Option (List Z)
  | [] => some []
  | z :: zs => (f z).bind fun out => (spread f zs).map (out ∪ ·)

/-- Adds what is reached until nothing is added, in `n` rounds at most. -/
def settle (f : List Z → Option (List Z)) : (n : Nat) → List Z → Option (List Z)
  | 0, _ => none
  | n + 1, zs => (f zs).bind fun out =>
    if out.all (zs.contains ·) then some zs else settle f n (out ∪ zs)

mutual
/-- The zones in which the matches of a node end that begin in one of some zones. -/
def Outline.reach (c : Chart Z) : Outline → List Z → Option (List Z)
  | .literal text, zs => spread (c.terminal (.literal text)) zs
  | .pattern regex, zs => spread (c.terminal (.pattern regex)) zs
  | .sequence os, zs => Outline.reachInTurn c os zs
  | .choice os, zs => Outline.reachAny c os zs
  | .repetition o, zs => settle (o.reach c) (c.size + 1) zs
  | .rule (some slot), zs => spread (c.rule slot) zs
  | .rule none, _ => some []
  | .optional o, zs => (o.reach c zs).map (· ∪ zs)
  | .kept o, zs => o.reach c zs

/-- The zones in which the matches of some nodes in a row end. -/
def Outline.reachInTurn (c : Chart Z) : List Outline → List Z → Option (List Z)
  | [], zs => some zs
  | o :: os, zs => (o.reach c zs).bind (Outline.reachInTurn c os)

/-- The zones in which the matches of any of some nodes end. -/
def Outline.reachAny (c : Chart Z) : List Outline → List Z → Option (List Z)
  | [], _ => some []
  | o :: os, zs => (o.reach c zs).bind fun out => (Outline.reachAny c os zs).map (out ∪ ·)
end

theorem exists_of_spread {f : Z → Option (List Z)} {out : List Z} (h : spread f zs = some out) {z : Z}
    (hz : z ∈ zs) : ∃ out', f z = some out' ∧ out' ⊆ out := by
  induction zs generalizing out with
  | nil => cases hz
  | cons z' zs ih =>
    obtain ⟨here, hhere, h⟩ := Option.bind_eq_some_iff.mp h
    obtain ⟨there, hthere, rfl⟩ := Option.map_eq_some_iff.mp h
    rcases List.mem_cons.mp hz with rfl | hz
    · exact ⟨here, hhere, fun x hx => List.mem_union_iff.mpr (.inl hx)⟩
    · obtain ⟨out', hout', hsub⟩ := ih hthere hz
      exact ⟨out', hout', fun x hx => List.mem_union_iff.mpr (.inr (hsub hx))⟩

/-- Where nothing is added any more, all that is reached is there. -/
theorem settled {f : List Z → Option (List Z)} {n : Nat} {out : List Z} (h : settle f n zs = some out) :
    zs ⊆ out ∧ (∃ out', f out = some out' ∧ out' ⊆ out) ∧ ∀ m, settle f (m + 1) out = some out := by
  induction n generalizing zs with
  | zero => cases h
  | succ n ih =>
    obtain ⟨here, hhere, h⟩ := Option.bind_eq_some_iff.mp h
    split at h
    · next hall =>
      obtain rfl := Option.some.inj h
      refine ⟨List.Subset.refl _, ⟨here, hhere, fun z hz => ?_⟩, fun m => ?_⟩
      · exact List.contains_iff_mem.mp (List.all_eq_true.mp hall z hz)
      · rw [settle, hhere, Option.bind_some, if_pos hall]
    · obtain ⟨hsub, hreach, hfix⟩ := ih h
      exact ⟨fun z hz => hsub (List.mem_union_iff.mpr (.inr hz)), hreach, hfix⟩

/-- The chart tells where the matches of terminals end, and what it claims of rules is computed of
their bodies. -/
structure Chart.Sound (c : Chart Z) (holds : Z → List Char → Prop) (bodies : Nat → Option Outline) :
    Prop where
  terminal : ∀ {o z out cs rest}, c.terminal o z = some out → holds z cs →
    Leaves bodies o cs (some rest) → Within holds out rest
  rule : ∀ {slot z out body}, c.rule slot z = some out → bodies slot = some body →
    ∃ out', body.reach c [z] = some out' ∧ out' ⊆ out

/-- The same, where some of what the chart claims of rules is known otherwise. -/
structure Chart.Valid (c : Chart Z) (holds : Z → List Char → Prop) (bodies : Nat → Option Outline) :
    Prop where
  terminal : ∀ {o z out cs rest}, c.terminal o z = some out → holds z cs →
    Leaves bodies o cs (some rest) → Within holds out rest
  rule : ∀ {slot z out body}, c.rule slot z = some out → bodies slot = some body →
    (∃ out', body.reach c [z] = some out' ∧ out' ⊆ out) ∨
      ∀ {cs rest}, holds z cs → Leaves bodies body cs (some rest) → Within holds out rest

theorem Chart.Sound.valid {c : Chart Z} {bodies : Nat → Option Outline} (S : c.Sound holds bodies) :
    c.Valid holds bodies :=
  ⟨S.terminal, fun hout hbody => .inl (S.rule hout hbody)⟩

/-- Checks what the chart claims of the first `n` rules. -/
def Chart.borneOut (c : Chart Z) (zones : List Z) (rules : Rules) (n : Nat) : Bool :=
  (List.range n).all fun slot => zones.all fun z => (c.rule slot z).all fun out =>
    (outlineOf rules slot).all fun body => (body.reach c [z]).any (·.all (out.contains ·))

/-- The chart is sound if the claims about the rules have been checked. -/
theorem Chart.sound_of_borneOut {c : Chart Z} {zones : List Z} {rules : Rules} {n : Nat}
    (hzones : ∀ z, z ∈ zones) (hn : ∀ slot z, n ≤ slot → c.rule slot z = none)
    (hterminal : ∀ {o z out cs rest}, c.terminal o z = some out → holds z cs →
      Leaves (outlineOf rules) o cs (some rest) → Within holds out rest)
    (h : c.borneOut zones rules n = true) : c.Sound holds (outlineOf rules) := by
  refine ⟨hterminal, fun {slot z out body} hout hbody => ?_⟩
  have hslot : slot < n := by
    by_contra hle
    rw [hn slot z (Nat.not_lt.mp hle)] at hout
    cases hout
  have hcheck := List.all_eq_true.mp (List.all_eq_true.mp h slot (List.mem_range.mpr hslot)) z
    (hzones z)
  rw [hout, hbody, Option.all_some, Option.all_some] at hcheck
  obtain ⟨out', hout', hall⟩ := (Option.any_eq_true _ _).mp hcheck
  exact ⟨out', hout', fun x hx => List.contains_iff_mem.mp (List.all_eq_true.mp hall x hx)⟩

variable {c : Chart Z} {bodies : Nat → Option Outline} {place : List Char → Prop} {o : Outline}
  {r : Option (List Char)} {out : List Z} {rest : List Char}

/-- Every match ends in one of the zones that are computed. -/
theorem Chart.Valid.within (S : c.Valid holds bodies) (h : Course bodies place o cs r)
    (hreach : o.reach c zs = some out) (hcs : Within holds zs cs) (hr : r = some rest) :
    Within holds out rest := by
  -- a terminal ends where the chart says
  have hterminal {o : Outline} {zs out : List Z} {cs rest : List Char}
      (hreach : spread (c.terminal o) zs = some out) (hcs : Within holds zs cs)
      (h : Leaves bodies o cs (some rest)) : Within holds out rest := by
    obtain ⟨z, hz, hcs⟩ := hcs
    obtain ⟨out', hout', hsub⟩ := exists_of_spread hreach hz
    exact (S.terminal hout' hcs h).mono hsub
  induction h generalizing zs out rest with
  | literal =>
    obtain rfl := Option.some.inj hr
    exact hterminal hreach hcs .literal
  | @pattern regex cs =>
    refine hterminal hreach hcs ?_
    rw [← hr]
    exact .pattern
  | done =>
    obtain rfl := Option.some.inj hr
    obtain rfl := Option.some.inj hreach
    exact hcs
  | part _ _ _ ih ihs =>
    obtain ⟨mid, hmid, hreach⟩ := Option.bind_eq_some_iff.mp hreach
    exact ihs hreach (ih hmid hcs rfl) hr
  | alternative _ ih =>
    obtain ⟨here, hhere, hreach⟩ := Option.bind_eq_some_iff.mp hreach
    obtain ⟨there, -, rfl⟩ := Option.map_eq_some_iff.mp hreach
    exact (ih hhere hcs hr).mono fun x hx => List.mem_union_iff.mpr (.inl hx)
  | otherwise _ _ _ ihs =>
    obtain ⟨here, hhere, hreach⟩ := Option.bind_eq_some_iff.mp hreach
    obtain ⟨there, hthere, rfl⟩ := Option.map_eq_some_iff.mp hreach
    exact (ihs hthere hcs hr).mono fun x hx => List.mem_union_iff.mpr (.inr hx)
  | round _ _ _ _ ih ihs =>
    -- one round ends where nothing is added, and so do the others
    obtain ⟨hsub, ⟨out', hout', hback⟩, hfix⟩ := settled hreach
    exact ihs (hfix _) ((ih hout' (hcs.mono hsub) rfl).mono hback) hr
  | idle | stop =>
    obtain rfl := Option.some.inj hr
    exact hcs.mono (settled hreach).1
  | @rule slot o cs r hbody h ih =>
    obtain ⟨z, hz, hcs⟩ := hcs
    obtain ⟨here, hhere, hsub⟩ := exists_of_spread hreach hz
    rcases S.rule hhere hbody with ⟨out', hout', hsub'⟩ | hknown
    · exact (ih hout' (within_singleton.mpr hcs) hr).mono (List.Subset.trans hsub' hsub)
    · exact (hknown hcs (hr ▸ h.leaves)).mono hsub
  | optional _ ih =>
    obtain ⟨out', hout', rfl⟩ := Option.map_eq_some_iff.mp hreach
    exact (ih hout' hcs hr).mono fun x hx => List.mem_union_iff.mpr (.inl hx)
  | skipped =>
    obtain rfl := Option.some.inj hr
    obtain ⟨out', -, rfl⟩ := Option.map_eq_some_iff.mp hreach
    exact hcs.mono fun x hx => List.mem_union_iff.mpr (.inr hx)
  | kept _ ih => exact ih hreach hcs hr
  | literalFailed | partFailed | exhausted => cases hr

theorem Chart.Sound.within (S : c.Sound holds bodies) (h : Course bodies place o cs r)
    (hreach : o.reach c zs = some out) (hcs : Within holds zs cs) (hr : r = some rest) :
    Within holds out rest :=
  S.valid.within h hreach hcs hr

end Typestrip.Grammar
