import Mathlib.Data.Option.Basic
import Typestrip.Proofs.Regex.Runs
import Typestrip.Regex.Reading

/-!
# A pattern inside of a group

A terminal is not read from its source as it stands but from the source put into a group behind the
mark for the beginning of the text. If the source is a pattern by itself, and the group can be read as
well, then what is read is that very pattern, tied to the beginning of the text
(`Expr.ofSource?_grouped`).

Every reader reads inside of the group what it reads by itself (`readBranches_inside`). The only
difference there can be is the closing parenthesis behind the source, and none of them takes that for
its own: whatever ends with the source ends in front of the parenthesis. In verbose mode a comment may
swallow it (`Cursor.Inside`), and then the group is never closed and nothing is read at all.
-/

namespace Typestrip.Regex

/-! ## Cursors -/

/-- The cursor `k'` reads inside parentheses what `k` reads by itself: the closing parenthesis stands
behind it, or has been skipped as the end of a comment. -/
structure Cursor.Inside (k k' : Cursor) : Prop where
  rest : k'.rest = k.rest ++ [')'] ∨ k.rest = [] ∧ k'.rest = []
  verbose : k'.verbose = k.verbose
  names : k'.names = k.names

namespace Cursor

variable {k k' l : Cursor} {c : Char}

theorem skip_append (inComment : Bool) (cs : List Char) :
    skip inComment (cs ++ [')']) = skip inComment cs ++ [')'] ∨
      skip inComment cs = [] ∧ skip inComment (cs ++ [')']) = [] := by
  induction cs generalizing inComment with
  | nil =>
    cases inComment with
    | true => exact .inr ⟨rfl, rfl⟩
    | false => exact .inl (by decide)
  | cons c cs ih =>
    rw [List.cons_append, skip, skip]
    split
    · exact ih _
    · split
      · exact ih _
      · split
        · exact ih _
        · exact .inl rfl

theorem Inside.space (h : k.Inside k') : k.space.Inside k'.space := by
  obtain ⟨hrest, hverbose, hnames⟩ := h
  rw [Cursor.space, Cursor.space, hverbose]
  split
  · refine ⟨?_, rfl, hnames⟩
    rcases hrest with hrest | ⟨hrest, hrest'⟩
    · exact hrest ▸ skip_append false k.rest
    · exact .inr ⟨by rw [hrest]; rfl, by rw [hrest']; rfl⟩
  · exact ⟨hrest, hverbose, hnames⟩

theorem Inside.next (h : k.Inside k') : k.next.Inside k'.next := by
  obtain ⟨hrest, hverbose, hnames⟩ := h
  refine ⟨?_, hverbose, hnames⟩
  show k'.rest.tail = k.rest.tail ++ [')'] ∨ k.rest.tail = [] ∧ k'.rest.tail = []
  rcases hrest with hrest | ⟨hrest, hrest'⟩
  · rw [hrest]
    cases k.rest with
    | nil => exact .inr ⟨rfl, rfl⟩
    | cons c cs => exact .inl rfl
  · exact .inr ⟨by rw [hrest]; rfl, by rw [hrest']; rfl⟩

/-- Where something is left to read, it is left inside parentheses as well. -/
theorem Inside.rest_eq (h : k.Inside k') (hne : k.rest ≠ []) : k'.rest = k.rest ++ [')'] :=
  h.rest.resolve_right fun hrest => hne hrest.1

theorem rest_ne_nil (hc : k.peek? = some c) : k.rest ≠ [] := by
  intro hrest
  rw [peek?, hrest] at hc
  cases hc

theorem exists_rest_eq (hc : k.peek? = some c) : ∃ cs, k.rest = c :: cs :=
  List.head?_eq_some_iff.mp hc

theorem Inside.peek? (h : k.Inside k') (hc : k.peek? = some c) : k'.peek? = some c := by
  rw [Cursor.peek?, h.rest_eq (rest_ne_nil hc), List.head?_append]
  rw [Cursor.peek?] at hc
  rw [hc, Option.some_or]

theorem Inside.peek?_of_none (h : k.Inside k') (hc : k.peek? = none) :
    k'.peek? = none ∨ k'.peek? = some ')' := by
  have hnil : k.rest = [] := List.head?_eq_none_iff.mp hc
  rw [Cursor.peek?]
  rcases h.rest with hrest | ⟨-, hrest⟩
  · rw [hrest, hnil]
    exact .inr rfl
  · rw [hrest]
    exact .inl rfl

/-- Only the closing parenthesis is met inside where nothing is left by itself. -/
theorem Inside.peek?_iff (h : k.Inside k') (hc : c ≠ ')') :
    k'.peek? = some c ↔ k.peek? = some c := by
  refine ⟨fun hc' => ?_, h.peek?⟩
  rw [Cursor.peek?] at hc' ⊢
  rcases h.rest with hrest | ⟨-, hrest'⟩
  · rw [hrest, List.head?_append] at hc'
    cases hhead : k.rest.head? with
    | some d => rwa [hhead] at hc'
    | none =>
      rw [hhead] at hc'
      exact absurd (Option.some.inj hc').symm hc
  · rw [hrest'] at hc'
    cases hc'

theorem Inside.nextPart? (h : k.Inside k') (hl : k.nextPart? = some l) :
    ∃ l', k'.nextPart? = some l' ∧ l.Inside l' := by
  rw [Cursor.nextPart?] at hl
  split at hl
  · cases hl
  · next hne =>
    obtain rfl := Option.some.inj hl
    refine ⟨_, if_neg ?_, h.next.space⟩
    rw [List.isEmpty_iff] at hne ⊢
    rw [h.next.space.rest_eq hne]
    simp

end Cursor

/-! ## Readers -/

/-- What the one yields the other yields as well, up to a relation. -/
def Carries {γ : Type} (R : γ → γ → Prop) (o o' : Option γ) : Prop :=
  ∀ ⦃x⦄, o = some x → ∃ x', o' = some x' ∧ R x x'

/-- The same has been read, by itself and inside parentheses. -/
def Agrees {α : Type} (x x' : α × Cursor) : Prop := x'.1 = x.1 ∧ x.2.Inside x'.2

namespace Carries

variable {α γ : Type} {R : γ → γ → Prop} {k k' : Cursor} {o o' : Option γ}

theorem none : Carries R Option.none o' := by
  rintro _ ⟨⟩

theorem some {x x' : γ} (h : R x x') : Carries R (some x) (some x') := by
  rintro _ ⟨⟩
  exact ⟨x', rfl, h⟩

theorem pure (x : α) (h : k.Inside k') : Carries Agrees (Option.some (x, k)) (Option.some (x, k')) :=
  some ⟨rfl, h⟩

theorem bind {S : α → α → Prop} {q q' : Option α} {f f' : α → Option γ} (h : Carries S q q')
    (hf : ∀ x x', S x x' → Carries R (f x) (f' x')) : Carries R (q >>= f) (q' >>= f') := by
  intro y hy
  obtain ⟨x, hx, hy⟩ := Option.bind_eq_some_iff.mp hy
  obtain ⟨x', hx', hS⟩ := h hx
  obtain ⟨y', hy', hR⟩ := hf x x' hS hy
  exact ⟨y', Option.bind_eq_some_iff.mpr ⟨x', hx', hy'⟩, hR⟩

/-- The reader goes on behind what has been read. -/
theorem bind_read {q q' : Option (α × Cursor)} {f f' : α × Cursor → Option γ}
    (h : Carries Agrees q q') (hf : ∀ x l l', l.Inside l' → Carries R (f (x, l)) (f' (x, l'))) :
    Carries R (q >>= f) (q' >>= f') := by
  refine h.bind ?_
  rintro ⟨x, l⟩ ⟨_, l'⟩ ⟨rfl, hl⟩
  exact hf _ l l' hl

theorem bind_nextPart (h : k.Inside k') {f f' : Cursor → Option γ}
    (hf : ∀ l l', l.Inside l' → Carries R (f l) (f' l')) :
    Carries R (k.nextPart? >>= f) (k'.nextPart? >>= f') :=
  bind (fun _ hl => h.nextPart? hl) hf

theorem bind_peek (h : k.Inside k') {f f' : Char → Option γ}
    (hf : ∀ c, k.peek? = Option.some c → Carries R (f c) (f' c)) :
    Carries R (k.peek? >>= f) (k'.peek? >>= f') := by
  intro y hy
  obtain ⟨c, hc, hy⟩ := Option.bind_eq_some_iff.mp hy
  obtain ⟨y', hy', hR⟩ := hf c hc hy
  exact ⟨y', Option.bind_eq_some_iff.mpr ⟨c, h.peek? hc, hy'⟩, hR⟩

theorem bind_same (q : Option α) {f f' : α → Option γ} (hf : ∀ x, Carries R (f x) (f' x)) :
    Carries R (q >>= f) (q >>= f') := by
  cases hq : q with
  | none => exact none
  | some x => exact hf x

theorem ite {p p' : Prop} [Decidable p] [Decidable p'] {q q' : Option γ} (hp : p' ↔ p)
    (hyes : p → Carries R o o') (hno : ¬ p → Carries R q q') :
    Carries R (if p then o else q) (if p' then o' else q') := by
  by_cases h : p
  · rw [if_pos h, if_pos (hp.mpr h)]
    exact hyes h
  · rw [if_neg h, if_neg (mt hp.mp h)]
    exact hno h

end Carries

variable {k k' l : Cursor} {fuel fuel' : Nat}

theorem Cursor.Inside.length_le (h : k.Inside k') : k.rest.length ≤ k'.rest.length := by
  rcases h.rest with hrest | ⟨hrest, -⟩
  · rw [hrest, List.length_append]
    exact Nat.le_add_right _ _
  · rw [hrest]
    exact Nat.zero_le _

theorem exists_succ_of_le {n m : Nat} (h : n + 1 ≤ m) : ∃ m', m = m' + 1 ∧ n ≤ m' :=
  ⟨m - 1, by omega, by omega⟩

theorem readHexDigits_inside : ∀ (count value : Nat) {k k' : Cursor}, k.Inside k' →
    Carries Agrees (readHexDigits value count k) (readHexDigits value count k')
  | 0, value, _, _, h => .pure value h
  | 1, _, _, _, h => .bind_peek h fun c _ => .bind_same (hexValue? c) fun _ => .pure _ h.next.space
  | count + 2, _, _, _, h =>
    .bind_peek h fun c _ => .bind_same (hexValue? c) fun _ => .bind_nextPart h fun _ _ hnext =>
      readHexDigits_inside (count + 1) _ hnext

theorem readHexBrace_inside (digits : List Nat) (h : k.Inside k') (hle : fuel ≤ fuel') :
    Carries Agrees (readHexBrace digits fuel k) (readHexBrace digits fuel' k') := by
  induction fuel generalizing fuel' k k' digits with
  | zero => exact .none
  | succ fuel ih =>
    obtain ⟨fuel', rfl, hfuel⟩ := exists_succ_of_le hle
    refine .bind_nextPart h fun next next' hnext => .bind_peek hnext fun c _ => ?_
    refine .ite .rfl (fun _ => ?_) fun _ => .bind_same _ fun d => ih (d :: digits) hnext hfuel
    exact .ite .rfl (fun _ => .none) fun _ => .pure _ hnext.next.space

theorem readHex_inside (h : k.Inside k') : Carries Agrees (readHex k) (readHex k') := by
  refine .bind_peek h fun letter _ => .bind_nextPart h fun next next' hnext => ?_
  refine .ite (hnext.peek?_iff (by decide)) (fun _ => ?_) fun _ => ?_
  · refine .bind_read (readHexBrace_inside [] hnext (Nat.succ_le_succ hnext.length_le)) fun n l l' hl => ?_
    exact .bind_same (charOfCode? n) fun c => .pure _ hl
  · refine .bind_read (readHexDigits_inside _ 0 hnext) fun n l l' hl => ?_
    exact .bind_same (charOfCode? n) fun c => .pure _ hl

theorem readPropertyBrace_inside (name : List Char) (h : k.Inside k') (hle : fuel ≤ fuel') :
    Carries Agrees (readPropertyBrace name fuel k) (readPropertyBrace name fuel' k') := by
  induction fuel generalizing fuel' k k' name with
  | zero => exact .none
  | succ fuel ih =>
    obtain ⟨fuel', rfl, hfuel⟩ := exists_succ_of_le hle
    refine .bind_nextPart h fun next next' hnext => .bind_peek hnext fun c _ => ?_
    exact .ite .rfl (fun _ => .pure _ hnext.next) fun _ => ih _ hnext hfuel

theorem readProperty_inside (h : k.Inside k') : Carries Agrees (readProperty k) (readProperty k') := by
  refine .bind_nextPart h fun next next' hnext => .bind_peek hnext fun c _ => ?_
  refine .ite .rfl (fun _ => ?_) fun _ => .ite .rfl (fun _ => .none) fun _ => .pure _ hnext.next.space
  exact readPropertyBrace_inside [] hnext (Nat.succ_le_succ hnext.length_le)

theorem readBoundaryName_inside (name : List Char) (h : k.Inside k') (hle : fuel ≤ fuel') :
    Carries Agrees (readBoundaryName name fuel k) (readBoundaryName name fuel' k') := by
  induction fuel generalizing fuel' k k' name with
  | zero => exact .none
  | succ fuel ih =>
    obtain ⟨fuel', rfl, hfuel⟩ := exists_succ_of_le hle
    refine .bind_peek h fun c _ => .ite .rfl (fun _ => ih _ h.next.space hfuel) fun _ => ?_
    exact .ite .rfl (fun _ => .pure _ h.next) fun _ => .none

theorem readBoundary_inside (h : k.Inside k') : Carries Agrees (readBoundary k) (readBoundary k') := by
  refine .ite (h.peek?_iff (by decide)) (fun _ => ?_) fun _ => .pure _ h
  refine .bind_nextPart h fun inside inside' hinside => .bind_peek hinside fun c _ => ?_
  refine .ite .rfl (fun _ => ?_) fun _ => .pure _ h
  have hname := readBoundaryName_inside [] hinside (Nat.succ_le_succ hinside.length_le)
  refine .bind_read hname fun name l l' hl => ?_
  refine .ite .rfl (fun _ => .pure _ hl) fun _ => .ite .rfl (fun _ => .pure _ hl) fun _ => ?_
  exact .ite .rfl (fun _ => .pure _ hl) fun _ => .ite .rfl (fun _ => .pure _ hl) fun _ => .none

theorem readEscape_inside (h : k.Inside k') : Carries Agrees (readEscape k) (readEscape k') := by
  refine .bind_peek h.next fun c _ => .ite .rfl (fun _ => .none) fun _ => ?_
  refine .ite .rfl (fun _ => ?_) fun _ => ?_
  · exact .bind_read (readHex_inside h.next) fun _ l l' hl => .pure _ hl
  refine .ite .rfl (fun _ => ?_) fun _ => ?_
  · exact .bind_read (readProperty_inside h.next) fun _ l l' hl => .pure _ hl
  have hbehind := h.next.next
  -- what is left are letters that stand for something by themselves
  repeat' first
    | exact .none
    | exact .pure _ hbehind
    | exact readBoundary_inside hbehind
    | refine .ite .rfl (fun _ => ?_) fun _ => ?_

/-! ## Classes -/

theorem takeWhile_append_of_cons {p : Char → Bool} {cs rest : List Char} {c : Char}
    (h : cs.dropWhile p = c :: rest) (t : List Char) :
    (cs ++ t).takeWhile p = cs.takeWhile p ∧ (cs ++ t).dropWhile p = c :: (rest ++ t) := by
  induction cs with
  | nil => cases h
  | cons d cs ih =>
    by_cases hd : p d = true
    · rw [List.dropWhile_cons_of_pos hd] at h
      obtain ⟨htake, hdrop⟩ := ih h
      rw [List.cons_append, List.takeWhile_cons_of_pos hd, List.takeWhile_cons_of_pos hd,
        List.dropWhile_cons_of_pos hd, htake, hdrop]
      exact ⟨rfl, rfl⟩
    · rw [List.dropWhile_cons_of_neg hd] at h
      obtain ⟨rfl, rfl⟩ := List.cons.inj h
      rw [List.cons_append, List.takeWhile_cons_of_neg hd, List.takeWhile_cons_of_neg hd,
        List.dropWhile_cons_of_neg hd]
      exact ⟨rfl, rfl⟩

theorem dropWhile_append_of_nil {p : Char → Bool} {cs : List Char} (h : cs.dropWhile p = [])
    (t : List Char) : (cs ++ t).dropWhile p = t.dropWhile p := by
  induction cs with
  | nil => rfl
  | cons d cs ih =>
    by_cases hd : p d = true
    · rw [List.dropWhile_cons_of_pos hd] at h
      rw [List.cons_append, List.dropWhile_cons_of_pos hd, ih h]
    · rw [List.dropWhile_cons_of_neg hd] at h
      cases h

/-- Reads the rest of a named class behind its negation. -/
def readClassName? (negated : Bool) (cs : List Char) : Option (ClassAst × List Char) :=
  match cs.dropWhile (· ≠ ':') with
  | ':' :: ']' :: rest =>
    let name := String.ofList (cs.takeWhile (· ≠ ':'))
    if asciiClassNames.contains name then some (.ascii negated name, rest) else none
  | _ => none

theorem readAsciiClass?_cons (c : Char) (cs : List Char) : readAsciiClass? (c :: cs) =
    if c = '^' then readClassName? true cs else readClassName? false (c :: cs) := by
  by_cases hc : c = '^'
  · subst hc
    rfl
  · rw [if_neg hc]
    unfold readAsciiClass?
    split
    next negated cs' heq =>
    split at heq
    · next hcons => exact absurd (List.cons.inj hcons).1 hc
    · obtain ⟨rfl, rfl⟩ := Prod.mk.inj heq
      rfl

/-- A named class ends in front of the closing parenthesis. -/
theorem readClassName?_append (negated : Bool) (cs : List Char) :
    readClassName? negated (cs ++ [')']) =
      (readClassName? negated cs).map fun x => (x.1, x.2 ++ [')']) := by
  cases hdrop : cs.dropWhile (· ≠ ':') with
  | nil =>
    have hdrop' := dropWhile_append_of_nil hdrop [')']
    rw [readClassName?, readClassName?, hdrop, hdrop']
    rfl
  | cons c rest =>
    obtain ⟨htake, hdrop'⟩ := takeWhile_append_of_cons hdrop [')']
    rw [readClassName?, readClassName?, hdrop, hdrop', htake]
    rcases rest with _ | ⟨d, rest⟩
    · split <;> simp_all
    · by_cases hclose : c = ':' ∧ d = ']'
      · obtain ⟨rfl, rfl⟩ := hclose
        split
        · next heq =>
          cases heq
          dsimp only
          rw [apply_ite (Option.map _)]
          rfl
        · next hne => exact absurd rfl (hne _)
      · split <;> simp_all

theorem readAsciiClass?_append (cs : List Char) :
    readAsciiClass? (cs ++ [')']) = (readAsciiClass? cs).map fun x => (x.1, x.2 ++ [')']) := by
  cases cs with
  | nil => rfl
  | cons c cs =>
    rw [List.cons_append, readAsciiClass?_cons, readAsciiClass?_cons]
    split
    · exact readClassName?_append true cs
    · exact readClassName?_append false (c :: cs)

theorem readClassItem_inside (h : k.Inside k') : Carries Agrees (readClassItem k) (readClassItem k') :=
  .bind_peek h fun _ _ => .ite .rfl (fun _ => readEscape_inside h) fun _ => .pure _ h.next

theorem readClassRange_inside (h : k.Inside k') : Carries Agrees (readClassRange k) (readClassRange k') := by
  refine .bind_read (readClassItem_inside h) fun first l l' hl => .bind_peek hl.space fun c _ => ?_
  have hfollowing {d : Char} (hd : d ≠ ')') :
      l'.space.next.space.peek? = some d ↔ l.space.next.space.peek? = some d :=
    hl.space.next.space.peek?_iff hd
  dsimp only
  refine .ite (or_congr_right (or_congr (hfollowing (by decide)) (hfollowing (by decide))))
    (fun _ => .bind_same _ fun a => .pure _ hl.space) fun _ => ?_
  refine .bind_nextPart hl.space fun next next' hnext => ?_
  refine .bind_read (readClassItem_inside hnext) fun last m m' hm => ?_
  dsimp only
  split
  · exact .ite .rfl (fun _ => .pure _ hm) fun _ => .none
  · exact .none

theorem readHyphens_inside (items : List ClassAst) (h : k.Inside k') (hle : fuel ≤ fuel') :
    Carries Agrees (readHyphens items fuel k) (readHyphens items fuel' k') := by
  induction fuel generalizing fuel' k k' items with
  | zero => exact .none
  | succ fuel ih =>
    obtain ⟨fuel', rfl, hfuel⟩ := exists_succ_of_le hle
    refine .ite (h.peek?_iff (by decide)) (fun _ => ?_) fun _ => .pure _ h
    exact .bind_nextPart h fun next next' hnext => ih _ hnext hfuel

/-- The same class has been opened, by itself and inside parentheses. -/
def Opened (x x' : Bool × List ClassAst × Cursor) : Prop :=
  x'.1 = x.1 ∧ x'.2.1 = x.2.1 ∧ x.2.2.Inside x'.2.2

theorem openClass_inside (h : k.Inside k') : Carries Opened (openClass k) (openClass k') := by
  refine .bind_nextPart h fun first first' hfirst => ?_
  have hcaret : first'.peek? = some '^' ↔ first.peek? = some '^' := hfirst.peek?_iff (by decide)
  have hitems (l l' : Cursor) (hl : l.Inside l') : Carries Opened
      (readHyphens [] (l.rest.length + 1) l >>= fun x =>
        if x.1.isEmpty = true ∧ x.2.peek? = some ']' then
          x.2.nextPart? >>= fun next =>
            pure (decide (first.peek? = some '^'), [ClassAst.literal ']'], next)
        else pure (decide (first.peek? = some '^'), x.1, x.2))
      (readHyphens [] (l'.rest.length + 1) l' >>= fun x =>
        if x.1.isEmpty = true ∧ x.2.peek? = some ']' then
          x.2.nextPart? >>= fun next =>
            pure (decide (first'.peek? = some '^'), [ClassAst.literal ']'], next)
        else pure (decide (first'.peek? = some '^'), x.1, x.2)) := by
    have hnegated : decide (first'.peek? = some '^') = decide (first.peek? = some '^') :=
      decide_eq_decide.mpr hcaret
    rw [hnegated]
    refine .bind_read (readHyphens_inside [] hl (Nat.succ_le_succ hl.length_le)) ?_
    intro items m m' hm
    refine .ite (and_congr_right fun _ => hm.peek?_iff (by decide)) (fun _ => ?_) fun _ => ?_
    · exact .bind_nextPart hm fun next next' hnext => .some ⟨rfl, rfl, hnext⟩
    · exact .some ⟨rfl, rfl, hm⟩
  refine .ite hcaret (fun _ => ?_) fun _ => ?_
  · exact .bind_nextPart hfirst hitems
  · exact hitems first first' hfirst

/-- A closing parenthesis is no part of an operator. -/
theorem setOp?_append (cs : List Char) : setOp? (cs ++ [')']) = setOp? cs := by
  rcases cs with _ | ⟨c, _ | ⟨d, cs⟩⟩
  · rfl
  · rw [List.cons_append, List.nil_append]
    unfold setOp?
    split <;> simp_all
  · rw [List.cons_append, List.cons_append]
    unfold setOp?
    split <;> simp_all

theorem readClassItems_inside (pending : Option (SetOp × ClassAst)) (items : List ClassAst)
    (h : k.Inside k') (hle : fuel ≤ fuel') :
    Carries Agrees (readClassItems pending items fuel k) (readClassItems pending items fuel' k') := by
  induction fuel generalizing fuel' k k' pending items with
  | zero => exact .none
  | succ fuel ih =>
    obtain ⟨fuel', rfl, hfuel⟩ := exists_succ_of_le hle
    refine .bind_peek h.space fun c hc => ?_
    have hrest := h.space.rest_eq (Cursor.rest_ne_nil hc)
    have hop : setOp? k'.space.rest = setOp? k.space.rest := by rw [hrest, setOp?_append]
    rw [hop]
    cases setOp? k.space.rest with
    | some op => exact ih _ _ h.space.next.next hfuel
    | none =>
      refine .ite .rfl (fun _ => .pure _ h.space.next) fun _ => .ite .rfl (fun _ => ?_) fun _ => ?_
      · have hopen : Carries Agrees
            (openClass k.space >>= fun x => readClassItems none x.2.1 fuel x.2.2 >>= fun y =>
              readClassItems pending (.bracketed x.1 y.1 :: items) fuel y.2)
            (openClass k'.space >>= fun x => readClassItems none x.2.1 fuel' x.2.2 >>= fun y =>
              readClassItems pending (.bracketed x.1 y.1 :: items) fuel' y.2) := by
          refine (openClass_inside h.space).bind ?_
          rintro ⟨negated, first, l⟩ ⟨_, _, l'⟩ ⟨rfl, rfl, hl⟩
          exact .bind_read (ih none _ hl hfuel) fun a m m' hm => ih pending _ hm hfuel
        obtain ⟨cs, hcs⟩ := Cursor.exists_rest_eq hc
        rw [hcs, List.cons_append] at hrest
        simp only [hrest, hcs]
        rcases cs with _ | ⟨d, cs⟩
        · exact hopen
        · by_cases hd : d = ':'
          · subst hd
            simp only [List.cons_append, readAsciiClass?_append]
            cases readAsciiClass? cs with
            | none => exact hopen
            | some x => 
              exact ih _ _ ⟨.inl rfl, h.space.verbose, h.space.names⟩ hfuel
          · split
            · next heq =>
              split at heq
              · next hcons => exact absurd (List.cons.inj (List.cons.inj hcons).2).1 hd
              · cases heq
            · split
              · next heq =>
                split at heq
                · next hcons => exact absurd (List.cons.inj (List.cons.inj hcons).2).1 hd
                · cases heq
              · exact hopen
      · exact .bind_read (readClassRange_inside h.space) fun a l l' hl => ih _ _ hl hfuel

/-! ## Groups and repetitions -/

theorem readFlags_append {cs rest : List Char} {found changes : FlagChanges} {negation dangling : Bool}
    (h : readFlags found negation dangling cs = some (changes, rest)) (t : List Char) :
    readFlags found negation dangling (cs ++ t) = some (changes, rest ++ t) := by
  induction cs generalizing found negation dangling with
  | nil => cases h
  | cons c cs ih =>
    rw [List.cons_append, readFlags]
    rw [readFlags] at h
    split at h
    · next hend =>
      rw [if_pos hend]
      split at h
      · cases h
      · next hdangling =>
        cases h
        rw [if_neg hdangling]
        rfl
    · next hend =>
      rw [if_neg hend]
      split at h
      · next hminus =>
        rw [if_pos hminus]
        split at h
        · cases h
        · next hnegation =>
          rw [if_neg hnegation]
          exact ih h
      · next hminus =>
        rw [if_neg hminus]
        cases hflag : Flag.ofLetter? c with
        | none =>
          rw [hflag] at h
          cases h
        | some f =>
          simp only [hflag] at h ⊢
          split at h
          · cases h
          · next hnew =>
            rw [if_neg hnew]
            exact ih h

theorem readName_append {cs name rest found : List Char} (h : readName found cs = some (name, rest))
    (t : List Char) : readName found (cs ++ t) = some (name, rest ++ t) := by
  induction cs generalizing found with
  | nil => cases h
  | cons c cs ih =>
    rw [List.cons_append, readName]
    rw [readName] at h
    split at h
    · next hend =>
      rw [if_pos hend]
      split at h
      · cases h
      · next hempty =>
        cases h
        rw [if_neg hempty]
    · next hend =>
      rw [if_neg hend]
      split at h
      · next hletter =>
        rw [if_pos hletter]
        exact ih h
      · cases h

theorem readGreed_inside (h : k.Inside k') : Agrees (readGreed k) (readGreed k') := by
  have hmark : k'.peek? = some '?' ↔ k.peek? = some '?' := h.peek?_iff (by decide)
  rw [readGreed, readGreed]
  by_cases hk : k.peek? = some '?'
  · rw [if_pos hk, if_pos (hmark.mpr hk)]
    exact ⟨rfl, h.next⟩
  · rw [if_neg hk, if_neg (mt hmark.mp hk)]
    exact ⟨rfl, h⟩

theorem Cursor.Inside.blanks (h : k.Inside k') : k.blanks.Inside k'.blanks := by
  refine ⟨?_, h.verbose, h.names⟩
  show k'.rest.dropWhile Unicode.isSpace = k.rest.dropWhile Unicode.isSpace ++ [')'] ∨
    k.rest.dropWhile Unicode.isSpace = [] ∧ k'.rest.dropWhile Unicode.isSpace = []
  rcases h.rest with hrest | ⟨hrest, hrest'⟩
  · left
    cases hdrop : k.rest.dropWhile Unicode.isSpace with
    | nil =>
      rw [hrest, dropWhile_append_of_nil hdrop]
      decide
    | cons c rest => rw [hrest, (takeWhile_append_of_cons hdrop _).2, List.cons_append]
  · exact .inr ⟨by rw [hrest]; rfl, by rw [hrest']; rfl⟩

theorem Cursor.length_skip_le (inComment : Bool) (cs : List Char) :
    (skip inComment cs).length ≤ cs.length := by
  induction cs generalizing inComment with
  | nil => exact Nat.le_refl _
  | cons c cs ih =>
    rw [skip]
    split
    · exact Nat.le_succ_of_le (ih _)
    · split
      · exact Nat.le_succ_of_le (ih _)
      · split
        · exact Nat.le_succ_of_le (ih _)
        · exact Nat.le_refl _

theorem Cursor.length_space_le (k : Cursor) : k.space.rest.length ≤ k.rest.length := by
  rw [Cursor.space]
  split
  · exact length_skip_le false k.rest
  · exact Nat.le_refl _

theorem Cursor.length_next_lt {c : Char} (hc : k.peek? = some c) :
    k.next.space.rest.length < k.rest.length := by
  refine Nat.lt_of_le_of_lt k.next.length_space_le ?_
  show k.rest.tail.length < k.rest.length
  rw [List.length_tail]
  have := List.length_pos_iff.mpr (Cursor.rest_ne_nil hc)
  omega

/-- The digits of a count end in front of a closing parenthesis. -/
theorem readDigits_inside (digits : List Char) (h : k.Inside k') (hfuel : k.rest.length < fuel)
    (hfuel' : k'.rest.length < fuel') :
    Agrees (readDigits digits fuel k) (readDigits digits fuel' k') := by
  induction fuel generalizing fuel' k k' digits with
  | zero => exact absurd hfuel (Nat.not_lt_zero _)
  | succ fuel ih =>
    obtain ⟨fuel', rfl, -⟩ := exists_succ_of_le (Nat.succ_le_of_lt (Nat.zero_lt_of_lt hfuel'))
    rw [readDigits, readDigits]
    cases hc : k.peek? with
    | some c =>
      rw [h.peek? hc]
      dsimp only
      split
      · have hlt := Cursor.length_next_lt hc
        have hlt' := Cursor.length_next_lt (h.peek? hc)
        exact ih (c :: digits) h.next.space (by omega) (by omega)
      · exact ⟨rfl, h⟩
    | none =>
      rcases h.peek?_of_none hc with hc' | hc' <;> rw [hc'] <;> exact ⟨rfl, h⟩

theorem readCount_inside (h : k.Inside k') : Agrees (readCount k) (readCount k') := by
  obtain ⟨hdigits, hl⟩ := readDigits_inside [] h.blanks (Nat.lt_succ_self _) (Nat.lt_succ_self _)
  rw [readCount, readCount]
  dsimp only
  rw [hdigits]
  exact ⟨rfl, hl.blanks.space⟩

theorem readCounts_inside (h : k.Inside k') : Carries Agrees (readCounts k) (readCounts k') := by
  refine .bind_nextPart h fun first first' hfirst => ?_
  have hcount := readCount_inside hfirst
  revert hcount
  rcases readCount first with ⟨min, l⟩
  rcases readCount first' with ⟨min', l'⟩
  rintro ⟨rfl, hl⟩
  refine .bind_peek hl fun c _ => .bind_same _ fun min => ?_
  -- the end of the counts, whatever the larger one is
  have hclose (max : Option Nat) {m m' : Cursor} (hm : m.Inside m') : Carries Agrees
      (if m.peek? ≠ some '\x7d' then none
        else if max.any (· < min) then none else pure ((min, max), m.next.space))
      (if m'.peek? ≠ some '\x7d' then none
        else if max.any (· < min) then none else pure ((min, max), m'.next.space)) := by
    refine .ite (not_congr (hm.peek?_iff (by decide))) (fun _ => .none) fun _ => ?_
    exact .ite .rfl (fun _ => .none) fun _ => .pure _ hm.next.space
  refine .ite .rfl (fun _ => ?_) fun _ => hclose _ hl
  refine .bind_nextPart hl fun next next' hnext => ?_
  refine .ite (hnext.peek?_iff (by decide)) (fun _ => hclose none hnext) fun _ => ?_
  have hlarger := readCount_inside hnext
  revert hlarger
  rcases readCount next with ⟨max, m⟩
  rcases readCount next' with ⟨max', m'⟩
  rintro ⟨rfl, hm⟩
  exact .bind_same _ fun max => hclose _ hm

theorem nameGroup_inside (h : k.Inside k') (cs : List Char) :
    Carries Agrees (nameGroup k cs) (nameGroup k' (cs ++ [')'])) := by
  have hname : Carries (fun x x' => x'.1 = x.1 ∧ x'.2 = x.2 ++ [')']) (readName [] cs)
      (readName [] (cs ++ [')'])) := by
    rintro ⟨name, rest⟩ h
    exact ⟨_, readName_append h [')'], rfl, rfl⟩
  refine hname.bind ?_
  rintro ⟨name, rest⟩ ⟨name', rest'⟩ ⟨hsame, hrest⟩
  obtain rfl : name' = name := hsame
  obtain rfl : rest' = rest ++ [')'] := hrest
  refine .ite (by rw [h.names]) (fun _ => .none) fun _ => ?_
  exact .pure _ ⟨.inl rfl, h.verbose, congrArg (name' :: ·) h.names⟩

/-- What flags behind an opening parenthesis introduce. -/
def openGroup (k : Cursor) (x : FlagChanges × List Char) : Option (Opening × Cursor) :=
  match x.2 with
  | [] => none
  | c :: rest =>
    if c = ')' then if x.1.isEmpty then none else some (.flags x.1, { k with rest })
    else some (.group x.1, { k with rest })

theorem readOpening_group (h : k.next.space.peek? ≠ some '?') :
    readOpening k = some (.group [], k.next.space) := by
  rw [readOpening]
  split
  all_goals first
    | rfl
    | next heq => exact absurd (by rw [Cursor.peek?, heq]; rfl) h

theorem readOpening_name {cs : List Char} (h : k.next.space.rest = '?' :: '<' :: cs)
    (hcs : cs.head? ≠ some '=' ∧ cs.head? ≠ some '!') :
    readOpening k = nameGroup k.next.space cs := by
  rw [readOpening, h]
  rcases cs with _ | ⟨c, cs⟩
  · rfl
  · split
    case h_3 heq => exact absurd (congrArg List.head? (List.cons.inj (List.cons.inj heq).2).2) hcs.1
    case h_4 heq => exact absurd (congrArg List.head? (List.cons.inj (List.cons.inj heq).2).2) hcs.2
    case h_6 heq => rw [(List.cons.inj (List.cons.inj heq).2).2]
    case h_7 hne heq => exact absurd (List.cons.inj heq).2.symm (hne _)
    case h_8 hne => exact absurd rfl (hne _)
    all_goals next heq => cases heq

theorem readOpening_longName {cs : List Char} (h : k.next.space.rest = '?' :: 'P' :: '<' :: cs) :
    readOpening k = nameGroup k.next.space cs := by
  rw [readOpening, h]
  rfl

theorem readOpening_flags {cs : List Char} (h : k.next.space.rest = '?' :: cs)
    (hcs : cs.head? ≠ some '=' ∧ cs.head? ≠ some '!' ∧ cs.head? ≠ some '<' ∧
      ¬ ['P', '<'] <+: cs) :
    readOpening k = readFlags [] false false cs >>= openGroup k.next.space := by
  rw [readOpening, h]
  split
  · next heq => exact absurd (congrArg List.head? (List.cons.inj heq).2) hcs.1
  · next heq => exact absurd (congrArg List.head? (List.cons.inj heq).2) hcs.2.1
  · next heq => exact absurd (congrArg List.head? (List.cons.inj heq).2) hcs.2.2.1
  · next heq => exact absurd (congrArg List.head? (List.cons.inj heq).2) hcs.2.2.1
  · next heq => exact absurd ⟨_, (List.cons.inj heq).2.symm⟩ hcs.2.2.2
  · next heq => exact absurd (congrArg List.head? (List.cons.inj heq).2) hcs.2.2.1
  · next heq =>
    obtain rfl := (List.cons.inj heq).2
    cases readFlags [] false false cs with
    | none => rfl
    | some x =>
      obtain ⟨changes, _ | ⟨c, rest⟩⟩ := x
      · rfl
      · by_cases hc : c = ')'
        · subst hc
          rfl
        · split
          · next heq' => exact absurd (congrArg Prod.snd (Option.some.inj heq')) (by simp [hc])
          · next heq' =>
            cases heq'
            exact (if_neg hc).symm
          · next hne => exact absurd rfl (hne changes c rest)
  · next hne => exact absurd rfl (hne cs)

theorem openGroup_inside (h : k.Inside k') (changes : FlagChanges) (cs : List Char) :
    Carries Agrees (openGroup k (changes, cs)) (openGroup k' (changes, cs ++ [')'])) := by
  cases cs with
  | nil => exact .none
  | cons c cs =>
    refine .ite .rfl (fun _ => .ite .rfl (fun _ => .none) fun _ => ?_) fun _ => ?_
    · exact .pure _ ⟨.inl rfl, h.verbose, h.names⟩
    · exact .pure _ ⟨.inl rfl, h.verbose, h.names⟩

theorem readOpening_inside (h : k.Inside k') : Carries Agrees (readOpening k) (readOpening k') := by
  have hk := h.next.space
  by_cases hmark : k.next.space.peek? = some '?'
  · obtain ⟨cs, hcs⟩ := Cursor.exists_rest_eq hmark
    have hcs' := hk.rest_eq (Cursor.rest_ne_nil hmark)
    rw [hcs, List.cons_append] at hcs'
    rcases cs with _ | ⟨c, cs⟩
    · rw [readOpening_flags hcs (by decide)]
      exact .none
    rw [List.cons_append] at hcs'
    by_cases hlook : c = '=' ∨ c = '!'
    · have hnone : readOpening k = none := by
        rw [readOpening, hcs]
        rcases hlook with rfl | rfl <;> rfl
      exact hnone ▸ .none
    rw [not_or] at hlook
    by_cases hangle : c = '<'
    · subst hangle
      rcases cs with _ | ⟨d, cs⟩
      · rw [readOpening_name hcs (by decide)]
        exact .none
      by_cases hlook : d = '=' ∨ d = '!'
      · have hnone : readOpening k = none := by
          rw [readOpening, hcs]
          rcases hlook with rfl | rfl <;> rfl
        exact hnone ▸ .none
      rw [not_or] at hlook
      rw [readOpening_name hcs (by simpa using hlook), readOpening_name hcs' (by simpa using hlook)]
      exact nameGroup_inside hk (d :: cs)
    by_cases hlong : ∃ cs', c = 'P' ∧ cs = '<' :: cs'
    · obtain ⟨cs', rfl, rfl⟩ := hlong
      rw [readOpening_longName hcs, readOpening_longName hcs']
      exact nameGroup_inside hk cs'
    have hhead (t : List Char) (ht : t.head? ≠ some '<') :
        (c :: (cs ++ t)).head? ≠ some '=' ∧ (c :: (cs ++ t)).head? ≠ some '!' ∧
          (c :: (cs ++ t)).head? ≠ some '<' ∧ ¬ ['P', '<'] <+: c :: (cs ++ t) := by
      refine ⟨by simpa using hlook.1, by simpa using hlook.2, by simpa using hangle, fun hprefix => ?_⟩
      obtain ⟨hP, hprefix⟩ := List.cons_prefix_cons.mp hprefix
      cases cs with
      | nil =>
        obtain ⟨_, heq⟩ := hprefix
        exact ht (by rw [← List.nil_append t, ← heq]; rfl)
      | cons d cs => exact hlong ⟨cs, hP.symm, by rw [(List.cons_prefix_cons.mp hprefix).1]⟩
    rw [readOpening_flags hcs (by simpa using hhead [] (by simp)),
      readOpening_flags hcs' (hhead [')'] (by decide))]
    have hflags : Carries (fun x x' => x'.1 = x.1 ∧ x'.2 = x.2 ++ [')'])
        (readFlags [] false false (c :: cs)) (readFlags [] false false (c :: (cs ++ [')']))) := by
      rintro ⟨changes, rest⟩ hr
      exact ⟨_, readFlags_append hr [')'], rfl, rfl⟩
    refine hflags.bind ?_
    rintro ⟨changes, rest⟩ ⟨changes', rest'⟩ ⟨hsame, hrest⟩
    obtain rfl : changes' = changes := hsame
    obtain rfl : rest' = rest ++ [')'] := hrest
    exact openGroup_inside hk _ rest
  · rw [readOpening_group hmark, readOpening_group (mt (hk.peek?_iff (by decide)).mp hmark)]
    exact .pure _ hk

/-! ## Branches -/

/-- The characters that do not stand for themselves in a branch. -/
def branchMarks : List Char :=
  [')', '|', '(', '[', '?', '*', '+', '\x7b', '\\', '.', '^', '$']

theorem readBranches_literal {branches parts : List Ast} {c : Char} {cs : List Char}
    (h : k.space.rest = c :: cs) (hc : c ∉ branchMarks) :
    readBranches branches parts (fuel + 1) k =
      readBranches branches (.literal c false :: parts) fuel k.space.next := by
  rw [readBranches]
  dsimp only
  rw [h]
  split <;> simp_all [branchMarks]

theorem Cursor.Inside.withVerbose (h : k.Inside k') {verbose verbose' : Bool}
    (hverbose : verbose' = verbose) :
    Cursor.Inside { k with verbose := verbose } { k' with verbose := verbose' } :=
  ⟨h.rest, hverbose, h.names⟩

theorem readBranches_inside (branches parts : List Ast) (h : k.Inside k') (hle : fuel ≤ fuel') :
    Carries Agrees (readBranches branches parts fuel k) (readBranches branches parts fuel' k') := by
  induction fuel generalizing fuel' k k' branches parts with
  | zero => exact .none
  | succ fuel ih =>
    obtain ⟨fuel', rfl, hfuel⟩ := exists_succ_of_le hle
    have hk := h.space
    have hrepeat (min : Nat) (max : Option Nat) {l l' : Cursor} (hl : l.Inside l') : Carries Agrees
        (repeatLast min max (readGreed l).1 parts >>= fun ps =>
          readBranches branches ps fuel (readGreed l).2)
        (repeatLast min max (readGreed l').1 parts >>= fun ps =>
          readBranches branches ps fuel' (readGreed l').2) := by
      obtain ⟨hgreedy, hm⟩ := readGreed_inside hl
      rw [hgreedy]
      exact .bind_same _ fun ps => ih _ _ hm hfuel
    cases hrest : k.space.rest with
    | nil =>
      rw [readBranches, readBranches]
      dsimp only
      rw [hrest]
      rcases hk.rest with hrest' | ⟨-, hrest'⟩
      · rw [hrest', hrest]
        exact .pure _ hk
      · rw [hrest']
        exact .pure _ hk
    | cons c cs =>
      have hrest' := hk.rest_eq (by rw [hrest]; exact List.cons_ne_nil c cs)
      rw [hrest, List.cons_append] at hrest'
      by_cases hmark : c ∈ branchMarks
      · rw [readBranches, readBranches]
        dsimp only
        rw [hrest, hrest']
        simp only [branchMarks, List.mem_cons, List.not_mem_nil, or_false] at hmark
        rcases hmark with rfl | rfl | rfl | rfl | rfl | rfl | rfl | rfl | rfl | rfl | rfl | rfl
        · exact .pure _ hk
        · exact ih _ [] hk.next hfuel
        · refine .bind_read (readOpening_inside hk) fun opening l l' hl => ?_
          cases opening with
          | flags changes =>
            exact ih _ _ (hl.withVerbose (by rw [hl.verbose])) hfuel
          | group changes =>
            refine .bind_read (ih [] [] (hl.withVerbose (by rw [hl.verbose])) hfuel)
              fun a m m' hm => ?_
            -- a group that is closed by itself is closed by the same parenthesis
            by_cases hclose : m.peek? = some ')'
            · rw [if_pos hclose, if_pos (hm.peek? hclose)]
              exact ih _ _ (hm.next.withVerbose hl.verbose) hfuel
            · rw [if_neg hclose]
              exact .none
        · refine (openClass_inside hk).bind ?_
          rintro ⟨negated, items, l⟩ ⟨negated', items', l'⟩ ⟨hnegated, hitems, hl⟩
          obtain rfl : negated' = negated := hnegated
          obtain rfl : items' = items := hitems
          have hclass := readClassItems_inside none items' hl (Nat.succ_le_succ hl.length_le)
          exact .bind_read hclass fun a m m' hm => ih _ _ hm hfuel
        · exact hrepeat 0 (some 1) hk.next
        · exact hrepeat 0 none hk.next
        · exact hrepeat 1 none hk.next
        · exact .bind_read (readCounts_inside hk) fun counts l l' hl => hrepeat counts.1 counts.2 hl
        · exact .bind_read (readEscape_inside hk) fun a l l' hl => ih _ _ hl hfuel
        · exact ih _ _ hk.next hfuel
        · exact ih _ _ hk.next hfuel
        · exact ih _ _ hk.next hfuel
      · rw [readBranches_literal hrest hmark, readBranches_literal hrest' hmark]
        exact ih _ _ hk.next hfuel

/-! ## Whole patterns -/

/-- A pattern as a group, tied to the beginning of the text. -/
def grouped (source : List Char) : List Char := ['\\', 'A', '(', '?', ':'] ++ source ++ [')']

/-- The reader comes to the source of a group and goes on behind it. -/
theorem readBranches_grouped (source : List Char) (fuel : Nat) :
    readBranches [] [] (fuel + 2) ⟨'\\' :: 'A' :: '(' :: '?' :: ':' :: source, false, []⟩ =
      readBranches [] [] fuel ⟨source, false, []⟩ >>= fun x =>
        if x.2.peek? = some ')' then
          readBranches [] [.group [] x.1, .assertion .textStart] fuel
            { x.2.next with verbose := false }
        else none := rfl

/-- What is read of a group is what its source is by itself. -/
theorem Ast.ofSource?_grouped {source : List Char} {a group : Ast}
    (h : Ast.ofSource? source = some a) (hgroup : Ast.ofSource? (grouped source) = some group) :
    group = .concat [.assertion .textStart, .group [] a] := by
  simp only [Ast.ofSource?, Option.bind_eq_bind, Option.bind_eq_some_iff] at h hgroup
  obtain ⟨⟨a', k⟩, hread, h⟩ := h
  obtain ⟨⟨group', l⟩, hreadGroup, hgroup⟩ := hgroup
  obtain ⟨⟨hend, -⟩, ha⟩ := Option.ite_none_right_eq_some.mp h
  obtain ⟨-, hgroup⟩ := Option.ite_none_right_eq_some.mp hgroup
  obtain rfl : a' = a := Option.some.inj ha
  obtain rfl : group' = group := Option.some.inj hgroup
  have hfuel : 2 * (grouped source).length + 2 = 2 * source.length + 12 + 2 := by
    simp only [grouped, List.length_append, List.length_cons, List.length_nil]
    omega
  rw [hfuel, show grouped source = '\\' :: 'A' :: '(' :: '?' :: ':' :: (source ++ [')']) from rfl,
    readBranches_grouped] at hreadGroup
  obtain ⟨⟨b, m⟩, hinner, hreadGroup⟩ := Option.bind_eq_some_iff.mp hreadGroup
  have hsource : Cursor.Inside ⟨source, false, []⟩ ⟨source ++ [')'], false, []⟩ :=
    ⟨.inl rfl, rfl, rfl⟩
  have hmore : 2 * source.length + 2 ≤ 2 * source.length + 12 := by omega
  obtain ⟨⟨b', m'⟩, hinner', hb, hm⟩ := readBranches_inside [] [] hsource hmore hread
  obtain ⟨rfl, rfl⟩ := Prod.mk.inj (Option.some.inj (hinner.symm.trans hinner'))
  obtain rfl : b = a' := hb
  obtain ⟨hclose, hreadGroup⟩ := Option.ite_none_right_eq_some.mp hreadGroup
  -- the group is closed by its own parenthesis, since the source has been read to its end
  have hbehind : { m.next with verbose := false } = Cursor.mk [] false m.names := by
    have hrest : m.next.rest = [] := by
      show m.rest.tail = []
      rcases hm.rest with hrest | ⟨-, hrest⟩
      · rw [hrest, List.isEmpty_iff.mp hend]
        rfl
      · rw [hrest]
        rfl
    exact congrArg (Cursor.mk · false m.names) hrest
  dsimp only at hreadGroup
  rw [hbehind] at hreadGroup
  exact (congrArg Prod.fst (Option.some.inj hreadGroup)).symm

/-- A source that is a pattern by itself is that pattern in a group, tied to the beginning of the
text. -/
theorem Expr.ofSource?_grouped {source : List Char} {e regex : Expr}
    (h : Expr.ofSource? source = some e) (hgroup : Expr.ofSource? (grouped source) = some regex) :
    regex = e.anchored := by
  simp only [Expr.ofSource?, Option.bind_eq_bind, Option.bind_eq_some_iff] at h hgroup
  obtain ⟨a, ha, h⟩ := h
  obtain ⟨group, hread, hgroup⟩ := hgroup
  obtain rfl := Ast.ofSource?_grouped ha hread
  obtain ⟨-, h⟩ := Option.ite_none_right_eq_some.mp h
  obtain ⟨-, hgroup⟩ := Option.ite_none_right_eq_some.mp hgroup
  obtain ⟨⟨e', mode⟩, he, h⟩ := Option.bind_eq_some_iff.mp h
  obtain rfl : e' = e := Option.some.inj h
  have hexpr : Ast.expr? .initial (.concat [.assertion .textStart, .group [] a]) =
      some (e'.anchored, .initial) := by
    have hsame : Mode.initial.setAll [] = .initial := rfl
    simp only [Ast.expr?, Ast.seqExpr?, hsame, he, Option.bind_eq_bind, Option.bind_some]
    rfl
  rw [hexpr] at hgroup
  exact (Option.some.inj hgroup).symm

end Typestrip.Regex
