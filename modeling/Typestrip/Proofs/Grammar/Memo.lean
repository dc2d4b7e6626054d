import Typestrip.Grammar.Matcher

/-!
# What a memo knows

A memo is looked at through `Memo.knows`, the outcome it would answer with. Asking changes nothing
in that, remembering changes it at one node and position only (`knows_insert`), and a memo that is
switched off never knows anything. What is remembered anew is one entry more (`size_insert`).
`memoized_of_knows` and `memoized_of_not_knows` are the two courses that matching by way of the memo
can take.
-/

namespace Typestrip.Grammar

instance : Std.TransCmp comparePairs :=
  inferInstanceAs (Std.TransCmp (compareLex (compareOn Prod.fst) (compareOn Prod.snd)))

instance : Std.LawfulEqCmp comparePairs where
  eq_of_compare {a b} h := by
    rw [comparePairs, Ordering.then_eq_eq] at h
    exact Prod.ext (Std.LawfulEqCmp.eq_of_compare h.1) (Std.LawfulEqCmp.eq_of_compare h.2)

namespace Memo

/-- The memo that is switched off. -/
abbrev off : Memo := empty false

/-- What the memo answers when it is asked about a node at a position. -/
def knows (m : Memo) (id : NodeId) (pos : Nat) : Option Outcome :=
  if m.enabled then m.entries.get? (id, pos) else none

@[simp] theorem knows_empty (enabled : Bool) (id : NodeId) (pos : Nat) :
    (empty enabled).knows id pos = none := by
  simp [knows, empty]

theorem find_fst (m : Memo) (id : NodeId) (pos : Nat) : (m.find id pos).1 = m.knows id pos := by
  unfold find knows
  split
  · cases m.entries.get? (id, pos) <;> rfl
  · rfl

theorem find_eq_of_knows {m : Memo} {id : NodeId} {pos : Nat} {o : Option Outcome}
    (h : m.knows id pos = o) : m.find id pos = (o, (m.find id pos).2) :=
  Prod.ext ((m.find_fst id pos).trans h) rfl

/-- Asking is counted and leaves the rest as it is. -/
theorem find_snd (m : Memo) (id : NodeId) (pos : Nat) :
    (m.find id pos).2.enabled = m.enabled ∧ (m.find id pos).2.entries = m.entries := by
  unfold find
  split
  · cases m.entries.get? (id, pos) <;> exact ⟨rfl, rfl⟩
  · exact ⟨rfl, rfl⟩

@[simp] theorem knows_find (m : Memo) (id : NodeId) (pos : Nat) :
    (m.find id pos).2.knows = m.knows := by
  funext id' pos'
  rw [knows, knows, (m.find_snd id pos).1, (m.find_snd id pos).2]

theorem knows_insert (m : Memo) (id : NodeId) (pos : Nat) (o : Outcome) (id' : NodeId)
    (pos' : Nat) :
    (m.insert id pos o).knows id' pos' =
      if m.enabled = true ∧ (id, pos) = (id', pos') then some o else m.knows id' pos' := by
  unfold insert
  by_cases henabled : m.enabled = true
  · simp only [henabled, if_true, true_and, knows]
    rw [Std.TreeMap.get?_eq_getElem?, Std.TreeMap.getElem?_insert]
    by_cases hkey : (id, pos) = (id', pos')
    · rw [if_pos hkey, if_pos (Std.LawfulEqCmp.compare_eq_iff_eq.mpr hkey)]
    · rw [if_neg hkey, if_neg (fun h => hkey (Std.LawfulEqCmp.compare_eq_iff_eq.mp h))]
      rfl
  · simp [henabled]

/-! ### Counters -/

theorem enabled_of_knows {m : Memo} {id : NodeId} {pos : Nat} {o : Outcome}
    (h : m.knows id pos = some o) : m.enabled = true := by
  unfold knows at h
  split at h
  · assumption
  · cases h

/-- A question with an answer is not counted as one without. -/
theorem misses_find_of_knows {m : Memo} {id : NodeId} {pos : Nat} {o : Outcome}
    (h : m.knows id pos = some o) : (m.find id pos).2.misses = m.misses := by
  have henabled := enabled_of_knows h
  rw [knows, if_pos henabled] at h
  rw [find, if_pos henabled, h]

theorem misses_find_of_not_knows {m : Memo} {id : NodeId} {pos : Nat} (henabled : m.enabled = true)
    (h : m.knows id pos = none) : (m.find id pos).2.misses = m.misses + 1 := by
  rw [knows, if_pos henabled] at h
  rw [find, if_pos henabled, h]

@[simp] theorem enabled_insert (m : Memo) (id : NodeId) (pos : Nat) (o : Outcome) :
    (m.insert id pos o).enabled = m.enabled := by
  unfold insert
  split <;> rfl

@[simp] theorem misses_insert (m : Memo) (id : NodeId) (pos : Nat) (o : Outcome) :
    (m.insert id pos o).misses = m.misses := by
  unfold insert
  split <;> rfl

/-- What was not known before makes a new entry. -/
theorem size_insert {m : Memo} {id : NodeId} {pos : Nat} (henabled : m.enabled = true)
    (h : m.knows id pos = none) (o : Outcome) :
    (m.insert id pos o).entries.size = m.entries.size + 1 := by
  rw [knows, if_pos henabled, Std.TreeMap.get?_eq_getElem?] at h
  have hmem : ¬ m.entries.contains (id, pos) = true := by
    rw [Std.TreeMap.contains_iff_mem, Std.TreeMap.mem_iff_isSome_getElem?, h]
    exact Bool.false_ne_true
  rw [insert, if_pos henabled, Std.TreeMap.size_insert, if_neg hmem]

/-! ### Switched off -/

@[simp] theorem find_off (id : NodeId) (pos : Nat) : off.find id pos = (none, off) := rfl

@[simp] theorem insert_off (id : NodeId) (pos : Nat) (o : Outcome) : off.insert id pos o = off :=
  rfl

end Memo

/-- The memo knows the outcome. -/
theorem memoized_of_knows {id : NodeId} {pos : Nat} {o : Outcome} {m : Memo}
    (h : m.knows id pos = some o) (r : Recognizer) (rest : List Char) :
    memoized id r pos rest m = (o, (m.find id pos).2) := by
  have hfst := m.find_fst id pos
  rw [h] at hfst
  rw [memoized]
  rcases hfind : m.find id pos with ⟨_ | found, m'⟩
  · simp [hfind] at hfst
  · rw [hfind] at hfst
    simp only [Option.some.injEq] at hfst
    rw [hfst]

/-- The memo does not know the outcome and is told it. -/
theorem memoized_of_not_knows {id : NodeId} {pos : Nat} {m : Memo} (h : m.knows id pos = none)
    (r : Recognizer) (rest : List Char) :
    memoized id r pos rest m =
      ((r pos rest (m.find id pos).2).1,
        (r pos rest (m.find id pos).2).2.insert id pos (r pos rest (m.find id pos).2).1) := by
  have hfst := m.find_fst id pos
  rw [h] at hfst
  rw [memoized]
  rcases hfind : m.find id pos with ⟨_ | found, m'⟩
  · rfl
  · simp [hfind] at hfst

end Typestrip.Grammar
