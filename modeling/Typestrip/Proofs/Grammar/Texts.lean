import Typestrip.Proofs.Grammar.Totality

/-!
# The texts of matches

What a node takes is made of what the nodes inside of it take. So if texts of some kind can be put
together, and whatever the simplest nodes take is of this kind, then all matches are
(`Course.exists_text`). Which nodes are taken for the simplest ones is up to the statement.
-/

namespace Typestrip.Grammar

mutual
/-- The outline is made of leaves, and of rules that are looked into. -/
def Outline.madeOf (leaf : Outline → Bool) (rule : Nat → Bool) : Outline → Bool
  | .literal text => leaf (.literal text)
  | .pattern regex => leaf (.pattern regex)
  | .sequence os => leaf (.sequence os) || Outline.allMadeOf leaf rule os
  | .choice os => leaf (.choice os) || Outline.allMadeOf leaf rule os
  | .repetition o => leaf (.repetition o) || o.madeOf leaf rule
  | .rule slot => leaf (.rule slot) || slot.any rule
  | .optional o => leaf (.optional o) || o.madeOf leaf rule
  | .kept o => leaf (.kept o) || o.madeOf leaf rule

def Outline.allMadeOf (leaf : Outline → Bool) (rule : Nat → Bool) : List Outline → Bool
  | [] => true
  | o :: os => o.madeOf leaf rule && Outline.allMadeOf leaf rule os
end

variable {bodies : Nat → Option Outline} {place : List Char → Prop} {o : Outline} {cs : List Char}
  {r : Option (List Char)}

/-- A node takes a text of some kind in front of what it leaves. -/
def Takes (kind : List Char → Prop) (cs rest : List Char) : Prop :=
  ∃ text, cs = text ++ rest ∧ kind text

variable {kind : List Char → Prop} {N : Nat}

/-- If the leaves take texts of some kind, on texts that are not too long, then all that is made of
them does. -/
theorem Course.exists_text (leaf : Outline → Bool) (rule : Nat → Bool) (hnil : kind [])
    (happend : ∀ {x y}, kind x → kind y → kind (x ++ y))
    (hleaf : ∀ {o cs rest}, leaf o = true → cs.length ≤ N → Course bodies place o cs (some rest) →
      Takes kind cs rest)
    (hrule : ∀ {slot o}, rule slot = true → bodies slot = some o → o.madeOf leaf rule = true)
    (h : Course bodies place o cs r) (ho : o.madeOf leaf rule = true) (hcs : cs.length ≤ N)
    {rest : List Char} (hr : r = some rest) : Takes kind cs rest := by
  have hnothing (cs : List Char) : Takes kind cs cs := ⟨[], rfl, hnil⟩
  have htrans {cs mid rest : List Char} (hfront : Takes kind cs mid) (hback : Takes kind mid rest) :
      Takes kind cs rest := by
    obtain ⟨x, rfl, hx⟩ := hfront
    obtain ⟨y, rfl, hy⟩ := hback
    exact ⟨x ++ y, (List.append_assoc ..).symm, happend hx hy⟩
  induction h generalizing rest with
  | literal =>
    obtain rfl := Option.some.inj hr
    exact hleaf ho hcs .literal
  | @pattern regex cs => exact hleaf ho hcs (hr ▸ .pattern)
  | done =>
    obtain rfl := Option.some.inj hr
    exact hnothing _
  | part h hmid hs ih ihs =>
    rcases Bool.or_eq_true_iff.mp ho with hl | ho
    · exact hleaf hl hcs (hr ▸ .part h hmid hs)
    · obtain ⟨ho, hos⟩ := Bool.and_eq_true_iff.mp ho
      exact htrans (ih ho hcs rfl)
        (ihs (Bool.or_eq_true_iff.mpr (.inr hos)) ((h.length_le rfl).trans hcs) hr)
  | alternative h ih =>
    rcases Bool.or_eq_true_iff.mp ho with hl | ho
    · exact hleaf hl hcs (hr ▸ .alternative h)
    · exact ih (Bool.and_eq_true_iff.mp ho).1 hcs hr
  | otherwise h hs _ ihs =>
    rcases Bool.or_eq_true_iff.mp ho with hl | ho
    · exact hleaf hl hcs (hr ▸ .otherwise h hs)
    · exact ihs (Bool.or_eq_true_iff.mpr (.inr (Bool.and_eq_true_iff.mp ho).2)) hcs hr
  | round h hlt hmid hs ih ihs =>
    rcases Bool.or_eq_true_iff.mp ho with hl | hround
    · exact hleaf hl hcs (hr ▸ .round h hlt hmid hs)
    · exact htrans (ih hround hcs rfl) (ihs ho (hlt.le.trans hcs) hr)
  | idle | stop | skipped =>
    obtain rfl := Option.some.inj hr
    exact hnothing _
  | rule hbody h ih =>
    rcases Bool.or_eq_true_iff.mp ho with hl | hr'
    · exact hleaf hl hcs (hr ▸ .rule hbody h)
    · exact ih (hrule hr' hbody) hcs hr
  | optional h ih =>
    rcases Bool.or_eq_true_iff.mp ho with hl | ho
    · exact hleaf hl hcs (hr ▸ .optional h)
    · exact ih ho hcs hr
  | kept h ih =>
    rcases Bool.or_eq_true_iff.mp ho with hl | ho
    · exact hleaf hl hcs (hr ▸ .kept h)
    · exact ih ho hcs hr
  | literalFailed | partFailed | exhausted => cases hr

end Typestrip.Grammar
