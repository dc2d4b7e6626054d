/-!
# Fields by name

A list of named fields in ascending order of their names, without a repetition. Names are compared by
code points, which is also the order of their UTF-8 bytes. `insert` keeps the order and lets the last
value given to a name win (`find?_insert_self`).
-/

namespace Typestrip.Fields

variable {α : Type}

/-- Gives a field a value, in place of the one it had. -/
def insert (name : String) (value : α) : List (String × α) → List (String × α)
  | [] => [(name, value)]
  | (n, v) :: rest =>
    if name < n then (name, value) :: (n, v) :: rest
    else if name = n then (name, value) :: rest
    else (n, v) :: insert name value rest

/-- The value of a field. -/
def find? (name : String) : List (String × α) → Option α
  | [] => none
  | (n, v) :: rest => if name = n then some v else find? name rest

/-- The fields of a list in which names may stand in any order and more than once. -/
def ofList (entries : List (String × α)) : List (String × α) :=
  entries.foldl (fun fields e => insert e.1 e.2 fields) []

/-- Whether the names ascend. -/
def Ascending (fields : List (String × α)) : Prop := fields.Pairwise (·.1 < ·.1)

theorem find?_insert_self (name : String) (value : α) (fields : List (String × α)) :
    find? name (insert name value fields) = some value := by
  induction fields with
  | nil => simp [insert, find?]
  | cons f rest ih =>
    obtain ⟨n, v⟩ := f
    simp only [insert]
    split
    · simp [find?]
    · split
      · simp [find?]
      · rename_i h
        simp [find?, h, ih]

theorem find?_insert_of_ne {name other : String} (h : other ≠ name) (value : α)
    (fields : List (String × α)) : find? other (insert name value fields) = find? other fields := by
  induction fields with
  | nil => simp [insert, find?, h]
  | cons f rest ih =>
    obtain ⟨n, v⟩ := f
    simp only [insert]
    split
    · simp [find?, h]
    · split
      · rename_i hn
        subst hn
        simp [find?, h]
      · simp [find?, ih]

end Typestrip.Fields
