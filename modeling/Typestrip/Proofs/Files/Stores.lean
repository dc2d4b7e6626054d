import Typestrip.Files.Store
import Typestrip.Proofs.Files.Paths

/-!
# Changes of file stores

Writing a file changes what is at its place, and making directories changes only what was nothing
before. `FileStore.Spares` says so of a store and a later one. Then a path that led somewhere leads there
still (`Spares.locate`), since the place that a path leads to is spelled by its own pieces.

A path whose last piece is a name leads to a place of that name (`FileStore.getLast?_locate`). So files of
different names are at different places, through whatever directories their paths go.
-/

namespace Typestrip.Files.FileStore

open Path

variable {s t u : FileStore} {l l' : Location} {e : Entry} {path name : String}
  {content : List UInt8} {touched : Location → Prop}

theorem find?_nil : s.find? [] = some .directory := rfl

theorem ne_nil_of_find? (h : s.find? l ≠ some .directory) : l ≠ [] := by
  rintro rfl
  exact h find?_nil

theorem lookup_filter_ne (entries : List (Location × Entry)) (h : l' ≠ l) :
    (entries.filter (·.1 ≠ l)).lookup l' = entries.lookup l' := by
  induction entries with
  | nil => rfl
  | cons entry entries ih =>
    obtain ⟨k, e⟩ := entry
    by_cases hk : k = l
    · subst hk
      have hne : (l' == k) = false := beq_false_of_ne h
      rw [List.filter_cons_of_neg (by simp), ih, List.lookup_cons, hne]
    · rw [List.filter_cons_of_pos (by simpa using hk), List.lookup_cons, List.lookup_cons, ih]

theorem find?_put_self (hl : l ≠ []) : (s.put l e).find? l = some e := by
  rw [find?, if_neg (by simpa using hl), put, List.lookup_cons_self]

theorem find?_put_of_ne (h : l' ≠ l) : (s.put l e).find? l' = s.find? l' := by
  have hne : (l' == l) = false := beq_false_of_ne h
  rw [find?, find?, put, List.lookup_cons, hne]
  simp only [lookup_filter_ne s.entries h]

/-! ## What later stores keep -/

/-- A later store has all directories of a store, and the same files but at the touched places. -/
structure Spares (s t : FileStore) (touched : Location → Prop) : Prop where
  workingDirectory : t.workingDirectory = s.workingDirectory
  directory : ∀ l, s.find? l = some .directory → t.find? l = some .directory
  file : ∀ l, ¬ touched l → ∀ content,
    t.find? l = some (.file content) ↔ s.find? l = some (.file content)

namespace Spares

theorem refl (s : FileStore) (touched : Location → Prop) : s.Spares s touched :=
  ⟨rfl, fun _ h => h, fun _ _ _ => Iff.rfl⟩

theorem trans (h : s.Spares t touched) (h' : t.Spares u touched) : s.Spares u touched :=
  ⟨h'.workingDirectory.trans h.workingDirectory, fun l hl => h'.directory l (h.directory l hl),
    fun l hl content => (h'.file l hl content).trans (h.file l hl content)⟩

theorem mono {touched' : Location → Prop} (h : s.Spares t touched)
    (hsub : ∀ l, touched l → touched' l) : s.Spares t touched' :=
  ⟨h.workingDirectory, h.directory, fun l hl => h.file l fun htouched => hl (hsub l htouched)⟩

/-- The entry put at a place is a directory where nothing was, or a file at a touched place. -/
theorem put (hl : s.find? l ≠ some .directory)
    (he : touched l ∨ e = .directory ∧ s.find? l = none) : s.Spares (s.put l e) touched := by
  refine ⟨rfl, fun k hk => ?_, fun k hk content => ?_⟩
  · have hne : k ≠ l := by
      rintro rfl
      exact hl hk
    rwa [find?_put_of_ne hne]
  · by_cases hkl : k = l
    · subst hkl
      obtain ⟨rfl, hnone⟩ := he.resolve_left hk
      rw [find?_put_self (ne_nil_of_find? hl), hnone]
      exact ⟨nofun, nofun⟩
    · rw [find?_put_of_ne hkl]

theorem walk (h : s.Spares t touched) {pieces : List String} (hw : s.walk l pieces = .ok l') :
    t.walk l pieces = .ok l' := by
  induction pieces generalizing l with
  | nil => exact hw
  | cons piece rest ih =>
    rw [FileStore.walk] at hw ⊢
    split at hw
    · cases hw
    · cases hw
    · next hdirectory =>
      simp only [h.directory l hdirectory]
      split at hw
      · next hstay =>
        rw [if_pos hstay]
        exact ih hw
      · next hstay =>
        rw [if_neg hstay]
        split at hw
        · next hup =>
          rw [if_pos hup]
          exact ih hw
        · next hup =>
          rw [if_neg hup]
          split at hw
          · cases hw
          · next hlong =>
            rw [if_neg hlong]
            exact ih hw

/-- A path leads where it led. -/
theorem locate (h : s.Spares t touched) (hl : s.locate path = .ok l) : t.locate path = .ok l := by
  rw [FileStore.locate] at hl ⊢
  split at hl
  · cases hl
  · next hnull =>
    rw [if_neg hnull]
    split at hl
    · cases hl
    · next hempty =>
      rw [if_neg hempty]
      split at hl
      · cases hl
      · next hlong =>
        rw [if_neg hlong, h.workingDirectory]
        exact h.walk hl

end Spares

/-! ## Operations -/

theorem locate_of_bind {α : Type} {f : Location → Except IoError α} {a : α}
    (h : s.locate path >>= f = .ok a) : ∃ l, s.locate path = .ok l ∧ f l = .ok a := by
  cases hl : s.locate path with
  | error e =>
    rw [hl] at h
    cases h
  | ok l =>
    rw [hl] at h
    exact ⟨l, rfl, h⟩

/-- What a path reads is what is at its place. -/
theorem read_eq_ok_iff : s.read path = .ok content ↔
    ∃ l, s.locate path = .ok l ∧ s.find? l = some (.file content) := by
  constructor
  · intro h
    obtain ⟨l, hl, h⟩ := locate_of_bind h
    refine ⟨l, hl, ?_⟩
    split at h
    · next hfile => rw [hfile, Except.ok.inj h]
    · cases h
    · cases h
  · rintro ⟨l, hl, hfile⟩
    simp only [read, hl, bind, Except.bind, hfile]

/-- A path reads what it read, unless its place is touched. -/
theorem Spares.read (h : s.Spares t touched) (hread : s.read path = .ok content)
    (hfree : ∀ l, t.locate path = .ok l → ¬ touched l) : t.read path = .ok content := by
  obtain ⟨l, hl, hfile⟩ := read_eq_ok_iff.mp hread
  have hl' := h.locate hl
  exact read_eq_ok_iff.mpr ⟨l, hl', (h.file l (hfree l hl') content).mpr hfile⟩

/-- A file is written at the place that its path leads to, and nothing else changes. -/
theorem read_of_write (h : s.write path content = .ok t) :
    t.read path = .ok content ∧ s.Spares t fun l => t.locate path = .ok l := by
  obtain ⟨l, hl, h⟩ := locate_of_bind h
  split at h
  · cases h
  · next hfile =>
    obtain rfl := Except.ok.inj h
    have hspares : s.Spares (s.put l (.file content)) (· = l) := .put hfile (.inl rfl)
    have hl' := hspares.locate hl
    refine ⟨read_eq_ok_iff.mpr ⟨l, hl', find?_put_self (ne_nil_of_find? hfile)⟩, ?_⟩
    refine hspares.mono fun k hk => ?_
    rw [hk]
    exact hl'

theorem Spares.of_makeDirectory (h : s.makeDirectory path = .ok t) : s.Spares t touched := by
  obtain ⟨l, -, h⟩ := locate_of_bind h
  split at h
  · cases h
  · next hnone =>
    obtain rfl := Except.ok.inj h
    exact .put (by simp [hnone]) (.inr ⟨rfl, hnone⟩)

theorem Spares.of_ensureDirectory (h : s.ensureDirectory path = .ok t) : s.Spares t touched := by
  rw [ensureDirectory] at h
  split at h
  · next hmade =>
    obtain rfl := Except.ok.inj h
    exact .of_makeDirectory hmade
  · split at h
    · obtain rfl := Except.ok.inj h
      exact .refl s touched
    · cases h

theorem Spares.of_makeAll {steps : List Component} (h : s.makeAll steps = .ok t) :
    s.Spares t touched := by
  induction steps generalizing t with
  | nil =>
    obtain rfl := Except.ok.inj h
    exact .refl s touched
  | cons last before ih =>
    rw [makeAll] at h
    split at h
    · cases habove : s.makeAll before with
      | error e =>
        rw [habove] at h
        cases h
      | ok above =>
        rw [habove] at h
        exact (ih habove).trans (.of_ensureDirectory h)
    · exact .of_ensureDirectory h

/-- Making directories changes no file. -/
theorem Spares.of_createDirectories (h : s.createDirectories path = .ok t) : s.Spares t touched :=
  .of_makeAll h

/-! ## Places of names -/

/-- A name that can stand in a directory. -/
def IsName (name : String) : Prop := name ≠ "" ∧ name ≠ "." ∧ name ≠ ".."

theorem getLast?_walk (hname : IsName name) {before : List String}
    (hw : s.walk l (before ++ [name]) = .ok l') : l'.getLast? = some name := by
  obtain ⟨hempty, hhere, hup⟩ := hname
  induction before generalizing l with
  | nil =>
    rw [List.nil_append, FileStore.walk] at hw
    split at hw
    · cases hw
    · cases hw
    · rw [if_neg (not_or.mpr ⟨hempty, hhere⟩), if_neg hup] at hw
      split at hw
      · cases hw
      · obtain rfl := Except.ok.inj hw
        exact List.getLast?_concat ..
  | cons piece before ih =>
    rw [List.cons_append, FileStore.walk] at hw
    split at hw
    · cases hw
    · cases hw
    · split at hw
      · exact ih hw
      · split at hw
        · exact ih hw
        · split at hw
          · cases hw
          · exact ih hw

/-- The place of a name in a directory bears the name. -/
theorem getLast?_locate {directory : String} (hname : IsName name) (hslash : '/' ∉ name.toList)
    (h : s.locate (join directory name) = .ok l) : l.getLast? = some name := by
  obtain ⟨before, hbefore⟩ := exists_pieces_join directory hslash
  rw [FileStore.locate] at h
  split at h
  · cases h
  · split at h
    · cases h
    · split at h
      · cases h
      · rw [hbefore] at h
        exact getLast?_walk hname h

end Typestrip.Files.FileStore
