import Typestrip.Files.Path
import Typestrip.Proofs.Text.Blanks

/-!
# Names in paths

The pieces of a path are the texts between its slashes, so none of them holds a slash, and neither does
the stem of a name. A name put behind a directory is the last piece of the whole path, however the path
of the directory is written (`Path.exists_pieces_join`).
-/

namespace Typestrip.Text

variable {mark : Char} {cs : List Char}

/-- The parts of a text are those in front of one of its marks and those behind it. -/
theorem split_append (front back : List Char) :
    split mark (front ++ mark :: back) =
      ((split mark front).1, (split mark front).2 ++ (split mark back).1 :: (split mark back).2) := by
  induction front with
  | nil =>
    rw [List.nil_append, split]
    exact if_pos rfl
  | cons c front ih =>
    rw [List.cons_append, split, ih, split]
    dsimp only
    split <;> rfl

theorem not_mem_part {part : List Char} (h : part ∈ (split mark cs).1 :: (split mark cs).2) :
    mark ∉ part := by
  induction cs generalizing part with
  | nil =>
    obtain rfl := List.mem_singleton.mp h
    exact List.not_mem_nil
  | cons c cs ih =>
    rw [split] at h
    dsimp only at h
    split at h
    · rcases List.mem_cons.mp h with rfl | h
      · exact List.not_mem_nil
      · exact ih h
    · next hc =>
      rcases List.mem_cons.mp h with rfl | h
      · rw [List.mem_cons, not_or]
        exact ⟨Ne.symm hc, ih List.mem_cons_self⟩
      · exact ih (List.mem_cons_of_mem _ h)

end Typestrip.Text

namespace Typestrip.Files.Path

open Text

variable {path name stem piece : String}

theorem pieces_ofList (cs : List Char) : pieces (String.ofList cs) =
    ((split '/' cs).1 :: (split '/' cs).2).map String.ofList := by
  rw [pieces, String.toList_ofList]

theorem not_mem_piece (h : piece ∈ pieces path) : '/' ∉ piece.toList := by
  obtain ⟨part, hpart, rfl⟩ := List.mem_map.mp h
  rw [String.toList_ofList]
  exact not_mem_part hpart

/-- A name behind a slash is the last piece. -/
theorem pieces_slash (front : List Char) (h : '/' ∉ name.toList) :
    ∃ before, pieces (String.ofList (front ++ '/' :: name.toList)) = before ++ [name] := by
  refine ⟨((split '/' front).1 :: (split '/' front).2).map String.ofList, ?_⟩
  rw [pieces_ofList, split_append, split_of_not_mem h, ← List.cons_append, List.map_append]
  simp

theorem exists_pieces_join (directory : String) (h : '/' ∉ name.toList) :
    ∃ before, pieces (join directory name) = before ++ [name] := by
  rw [join]
  split
  · refine ⟨[], ?_⟩
    rw [pieces, split_of_not_mem h]
    simp
  · split
    · next hslash =>
      obtain ⟨front, hfront⟩ := List.getLast?_eq_some_iff.mp hslash
      have hjoin : directory ++ name = String.ofList (front ++ '/' :: name.toList) := by
        rw [← String.toList_inj, String.toList_append, hfront, String.toList_ofList]
        simp
      exact hjoin ▸ pieces_slash front h
    · have hjoin : directory ++ "/" ++ name =
          String.ofList (directory.toList ++ '/' :: name.toList) := by
        rw [← String.toList_inj, String.toList_append, String.toList_append, String.toList_ofList]
        simp
      exact hjoin ▸ pieces_slash directory.toList h

theorem eq_of_component? (h : component? piece = some (.name name)) : piece = name := by
  rw [component?] at h
  split at h
  · cases h
  · split at h
    · cases h
    · exact Component.name.inj (Option.some.inj h)

/-- A name on a path is one of its pieces. -/
theorem mem_pieces_of_name (h : .name name ∈ components path) : name ∈ pieces path := by
  rw [components] at h
  cases hpieces : pieces path with
  | nil =>
    rw [hpieces] at h
    cases h
  | cons first rest =>
    rw [hpieces] at h
    dsimp only at h
    rcases List.mem_append.mp h with h | h
    · split at h
      · cases List.mem_singleton.mp h
      · split at h
        · cases List.mem_singleton.mp h
        · rw [eq_of_component? (Option.mem_toList.mp h)]
          exact List.mem_cons_self
    · obtain ⟨piece, hmem, hpiece⟩ := List.mem_filterMap.mp h
      rw [← eq_of_component? hpiece]
      exact List.mem_cons_of_mem first hmem

theorem stemOf_sublist (name : String) : (stemOf name).toList.Sublist name.toList := by
  rw [stemOf]
  split
  · exact List.Sublist.refl _
  · rw [String.toList_ofList]
    have hsublist := (List.drop_sublist 1 (name.toList.reverse.dropWhile (· ≠ '.'))).trans
      (List.dropWhile_sublist _)
    have hreverse := hsublist.reverse
    rwa [List.reverse_reverse] at hreverse

/-- The stem of the name that a path ends in holds no slash. -/
theorem not_mem_stem (h : stem? path = some stem) : '/' ∉ stem.toList := by
  obtain ⟨name, hname, rfl⟩ := Option.map_eq_some_iff.mp h
  rw [fileName?] at hname
  split at hname
  · next s hlast =>
    obtain rfl := Option.some.inj hname
    have hmem := mem_pieces_of_name (List.mem_of_getLast? hlast)
    exact fun hslash => not_mem_piece hmem ((stemOf_sublist s).subset hslash)
  · cases hname

end Typestrip.Files.Path
