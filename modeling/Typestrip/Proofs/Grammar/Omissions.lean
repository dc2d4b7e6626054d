import Typestrip.Proofs.Grammar.Forms
import Typestrip.Proofs.Text.Blanks

/-!
# What values leave out

The value of a sequence is made of the parts that are kept under a name. A part that may be missing
and is not kept is left out of the value: whatever it matched leaves no trace there. `Tree.cuts` cuts
the text of a match into the texts of these parts and the rest, `Tree.remains`. Up to blanks the rest
is all of the text exactly if nothing but blanks is left out (`Tree.nonBlank_remains_iff`).
-/

namespace Typestrip.Grammar

/-- The node may be missing, and its value is not kept. -/
def Node.isOmissible (n : Node) : Bool := n.attributes.nullable && n.attributes.capture.isNone

/-- The node is a sequence of which no part is kept: its value is its text. -/
def Node.isVerbatim : Node → Bool
  | .sequence _ ns => !ns.any (·.attributes.capture.isSome)
  | _ => false

/-- A piece of the text of a match: text that has to do with the value, or something that is left out
of it. -/
inductive Cut where
  | rest (text : List Char)
  | omission (t : Tree)

namespace Cut

def text : Cut → List Char
  | rest text => text
  | omission t => t.text

/-- The text of a piece that is not left out. -/
def remains : Cut → List Char
  | rest text => text
  | omission _ => []

end Cut

namespace Tree

mutual
/-- The text of a match in pieces. -/
def cuts : Tree → List Cut
  | leaf n text => if n.isOmissible then [.omission (leaf n text)] else [.rest text]
  | skipped _ => []
  | branch n parts =>
    if n.isOmissible then [.omission (branch n parts)]
    else if n.isVerbatim then [.rest (textAll parts)]
    else cutsAll parts

/-- The texts of trees in a row in pieces. -/
def cutsAll : List Tree → List Cut
  | [] => []
  | t :: ts => t.cuts ++ cutsAll ts
end

/-- Something of a match is left out of its value. -/
def Omits (t u : Tree) : Prop := .omission u ∈ t.cuts

/-- The text of a match without what is left out of its value. -/
def remains (t : Tree) : List Char := t.cuts.flatMap Cut.remains

variable {t u : Tree} {n m : Node} {ts : List Tree}

/-- What holds of every tree if it holds of each whose parts it holds of. -/
theorem induction {motive : Tree → Prop} (leaf : ∀ n text, motive (.leaf n text))
    (skipped : ∀ n, motive (.skipped n))
    (branch : ∀ n parts, (∀ u ∈ parts, motive u) → motive (.branch n parts)) (t : Tree) :
    motive t := by
  refine @Tree.rec motive (fun parts => ∀ u ∈ parts, motive u) leaf skipped branch ?_ ?_ t
  · exact fun u hu => absurd hu List.not_mem_nil
  · exact fun u us hu hus => List.forall_mem_cons.mpr ⟨hu, hus⟩

theorem cutsAll_eq_flatMap (ts : List Tree) : cutsAll ts = ts.flatMap cuts := by
  induction ts with
  | nil => rfl
  | cons t ts ih => rw [cutsAll, ih, List.flatMap_cons]

theorem cuts_branch (h : n.isOmissible = false) (h' : n.isVerbatim = false) :
    (branch n ts).cuts = ts.flatMap cuts := by
  rw [cuts, h, h', cutsAll_eq_flatMap]
  rfl

theorem cuts_branch_verbatim (h : n.isOmissible = false) (h' : n.isVerbatim = true) :
    (branch n ts).cuts = [.rest (textAll ts)] := by
  rw [cuts, h, h']
  rfl

/-- What is left out is left out as a whole. -/
theorem cuts_of_isOmissible (h : t.node.isOmissible = true) :
    t.cuts = [] ∨ t.cuts = [.omission t] := by
  cases t with
  | skipped => exact .inl rfl
  | leaf | branch =>
    rw [cuts]
    exact .inr (if_pos h)

/-- What is cut is all of the text. -/
theorem flatMap_text_cuts (t : Tree) : t.cuts.flatMap Cut.text = t.text := by
  induction t using Tree.induction with
  | leaf n text =>
    rw [cuts]
    split <;> exact List.append_nil text
  | skipped n => rfl
  | branch n parts ih =>
    rw [cuts]
    split
    · exact List.append_nil (branch n parts).text
    · split
      · exact List.append_nil (textAll parts)
      · rw [cutsAll_eq_flatMap, List.flatMap_assoc, Tree.text, textAll_eq_flatMap]
        exact List.flatMap_congr ih

theorem Omits.within (h : t.Omits u) : u.Within t := by
  induction t using Tree.induction with
  | leaf n text =>
    rw [Omits, cuts] at h
    split at h
    · cases List.mem_singleton.mp h
      exact .self
    · cases List.mem_singleton.mp h
  | skipped n => cases h
  | branch n parts ih =>
    rw [Omits, cuts] at h
    split at h
    · cases List.mem_singleton.mp h
      exact .self
    · split at h
      · cases List.mem_singleton.mp h
      · rw [cutsAll_eq_flatMap] at h
        obtain ⟨p, hp, hu⟩ := List.mem_flatMap.mp h
        exact .inside hp (ih p hp hu)

/-- Other attributes do not change the pieces of a match, unless it is left out. -/
theorem cuts_recast (h : t.node.isOmissible = false) (hm : m.isOmissible = false)
    (h' : m.isVerbatim = t.node.isVerbatim) : (t.recast m).cuts = t.cuts := by
  cases t with
  | skipped n => rfl
  | leaf n text =>
    rw [recast, cuts, cuts, hm, show n.isOmissible = false from h]
    rfl
  | branch n parts =>
    rw [recast, cuts, cuts, hm, h', show n.isOmissible = false from h]
    rfl

theorem nonBlank_remains_sublist (cs : List Cut) :
    (Text.nonBlank (cs.flatMap Cut.remains)).Sublist (Text.nonBlank (cs.flatMap Cut.text)) := by
  induction cs with
  | nil => exact .refl []
  | cons c cs ih =>
    rw [List.flatMap_cons, List.flatMap_cons, Text.nonBlank_append, Text.nonBlank_append]
    refine List.Sublist.append ?_ ih
    cases c with
    | rest text => exact .refl _
    | omission u => exact List.nil_sublist _

/-- Up to blanks nothing is lost exactly if only blanks are left out. -/
theorem nonBlank_cuts_iff (cs : List Cut) :
    Text.nonBlank (cs.flatMap Cut.remains) = Text.nonBlank (cs.flatMap Cut.text) ↔
      ∀ u, .omission u ∈ cs → Text.nonBlank u.text = [] := by
  induction cs with
  | nil => simp
  | cons c cs ih =>
    rw [List.flatMap_cons, List.flatMap_cons, Text.nonBlank_append, Text.nonBlank_append]
    cases c with
    | rest text =>
      change Text.nonBlank text ++ _ = Text.nonBlank text ++ _ ↔ _
      rw [List.append_cancel_left_eq, ih]
      simp
    | omission u =>
      -- what is left out here cannot be made up for behind it
      have hlength := (nonBlank_remains_sublist cs).length_le
      have hsplit : Text.nonBlank (cs.flatMap Cut.remains) =
          Text.nonBlank u.text ++ Text.nonBlank (cs.flatMap Cut.text) ↔ Text.nonBlank u.text = [] ∧
            Text.nonBlank (cs.flatMap Cut.remains) = Text.nonBlank (cs.flatMap Cut.text) := by
        constructor
        · intro h
          have hsum := congrArg List.length h
          rw [List.length_append] at hsum
          have hu : Text.nonBlank u.text = [] := List.length_eq_zero_iff.mp (by omega)
          rw [hu] at h
          exact ⟨hu, h⟩
        · rintro ⟨hu, h⟩
          rw [hu, h, List.nil_append]
      refine hsplit.trans ?_
      rw [ih]
      simp

theorem nonBlank_remains_iff (t : Tree) : Text.nonBlank t.remains = Text.nonBlank t.text ↔
    ∀ u, t.Omits u → Text.nonBlank u.text = [] := by
  rw [← flatMap_text_cuts t]
  exact nonBlank_cuts_iff t.cuts

end Tree

end Typestrip.Grammar
