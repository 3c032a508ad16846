/-!
# Sets of names

A set of names is kept as its strictly ascending list, in the order of code points,
so it has one form and is listed in that form.

## Main statements

* `mem_insert`, `mem_erase`, `mem_ofList`, `mem_filter`: what each operation does to
  membership.
* `toList_nodup`: a name is listed once.
-/

namespace XdrBindings

/-- A set of names, listed in strictly ascending order. -/
structure NameSet where
  toList : List String
  ascending : toList.Pairwise (· < ·)

namespace NameSet

instance : Membership String NameSet := ⟨fun names name => name ∈ names.toList⟩

theorem mem_def {names : NameSet} {name : String} : name ∈ names ↔ name ∈ names.toList :=
  Iff.rfl

/-- Whether a name is in the set. -/
def contains (names : NameSet) (name : String) : Bool := names.toList.contains name

@[simp] theorem contains_iff {names : NameSet} {name : String} :
    names.contains name = true ↔ name ∈ names := by
  simp [contains, mem_def]

theorem toList_nodup (names : NameSet) : names.toList.Nodup :=
  names.ascending.imp fun h => fun hEq => String.lt_irrefl _ (hEq ▸ h)

/-! ## Insertion -/

/-- Puts a name at its place in an ascending list, unless it is there. -/
def insertSorted (name : String) : List String → List String
  | [] => [name]
  | first :: rest =>
    if name < first then name :: first :: rest
    else if name = first then first :: rest
    else first :: insertSorted name rest

theorem mem_insertSorted {name other : String} {names : List String} :
    other ∈ insertSorted name names ↔ other = name ∨ other ∈ names := by
  induction names with
  | nil => simp [insertSorted]
  | cons first rest ih =>
    unfold insertSorted
    split
    · simp
    · split
      · rename_i hEq
        subst hEq
        simp
      · simp only [List.mem_cons, ih]
        constructor
        · rintro (h | h | h)
          · exact .inr (.inl h)
          · exact .inl h
          · exact .inr (.inr h)
        · rintro (h | h | h)
          · exact .inr (.inl h)
          · exact .inl h
          · exact .inr (.inr h)

theorem lt_of_not_lt_of_ne {a b : String} (h : ¬ a < b) (hNe : a ≠ b) : b < a := by
  rcases String.le_total a b with hLe | hLe
  · exact absurd (String.le_antisymm hLe (String.not_lt.mp h)) hNe
  · by_cases hLt : b < a
    · exact hLt
    · exact absurd (String.le_antisymm (String.not_lt.mp hLt) hLe) hNe

theorem insertSorted_ascending {name : String} {names : List String}
    (h : names.Pairwise (· < ·)) : (insertSorted name names).Pairwise (· < ·) := by
  induction names with
  | nil => simp [insertSorted]
  | cons first rest ih =>
    rw [List.pairwise_cons] at h
    unfold insertSorted
    split
    · rename_i hLt
      refine List.pairwise_cons.mpr ⟨?_, List.pairwise_cons.mpr h⟩
      intro other hOther
      rcases List.mem_cons.mp hOther with rfl | hRest
      · exact hLt
      · exact String.lt_trans hLt (h.1 other hRest)
    · split
      · exact List.pairwise_cons.mpr h
      · rename_i hLt hNe
        refine List.pairwise_cons.mpr ⟨?_, ih h.2⟩
        intro other hOther
        rcases mem_insertSorted.mp hOther with rfl | hRest
        · exact lt_of_not_lt_of_ne hLt hNe
        · exact h.1 other hRest

/-- The set without names. -/
def empty : NameSet := ⟨[], .nil⟩

/-- The set with one more name. -/
def insert (names : NameSet) (name : String) : NameSet :=
  ⟨insertSorted name names.toList, insertSorted_ascending names.ascending⟩

@[simp] theorem mem_insert {names : NameSet} {name other : String} :
    other ∈ names.insert name ↔ other = name ∨ other ∈ names := mem_insertSorted

/-! ## Other operations -/

/-- The names of a set that satisfy a condition. -/
def filter (names : NameSet) (keep : String → Bool) : NameSet :=
  ⟨names.toList.filter keep, names.ascending.filter keep⟩

@[simp] theorem mem_filter {names : NameSet} {keep : String → Bool} {name : String} :
    name ∈ names.filter keep ↔ name ∈ names ∧ keep name = true := by
  simp [filter, mem_def]

/-- The set without one name. -/
def erase (names : NameSet) (name : String) : NameSet := names.filter (· != name)

@[simp] theorem mem_erase {names : NameSet} {name other : String} :
    other ∈ names.erase name ↔ other ∈ names ∧ other ≠ name := by
  simp [erase]

/-- The set of the names in a list. -/
def ofList (names : List String) : NameSet := names.foldl insert empty

theorem mem_foldl_insert {names : List String} {start : NameSet} {name : String} :
    name ∈ names.foldl insert start ↔ name ∈ start ∨ name ∈ names := by
  induction names generalizing start with
  | nil => simp
  | cons first rest ih =>
    rw [List.foldl_cons, ih]
    simp only [mem_insert, List.mem_cons]
    constructor
    · rintro ((h | h) | h)
      · exact .inr (.inl h)
      · exact .inl h
      · exact .inr (.inr h)
    · rintro (h | h | h)
      · exact .inl (.inr h)
      · exact .inl (.inl h)
      · exact .inr h

@[simp] theorem mem_ofList {names : List String} {name : String} :
    name ∈ ofList names ↔ name ∈ names := by
  rw [ofList, mem_foldl_insert]
  simp [mem_def, empty]

end NameSet

end XdrBindings
