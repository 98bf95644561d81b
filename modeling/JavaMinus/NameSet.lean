/-!
# Finite sets of names

A set of names is a strictly ascending list, so equal sets are equal lists and the listed order is
the order of the names. Each operation comes with its membership law.
-/

namespace JavaMinus

/-- Put a name at its place in an ascending list, once. -/
def insertName (x : String) : List String → List String
  | [] => [x]
  | y :: ys => if x < y then x :: y :: ys else if x = y then y :: ys else y :: insertName x ys

theorem mem_insertName {x z : String} {ys : List String} :
    z ∈ insertName x ys ↔ z = x ∨ z ∈ ys := by
  induction ys with
  | nil => simp [insertName]
  | cons y ys ih =>
    simp only [insertName]
    split
    · simp
    · split
      · next h => simp [h]
      · simp only [List.mem_cons, ih]
        constructor <;> (intro h; rcases h with h | h | h <;> simp [h])

theorem pairwise_insertName {x : String} {ys : List String} (h : ys.Pairwise (· < ·)) :
    (insertName x ys).Pairwise (· < ·) := by
  induction ys with
  | nil => simp [insertName]
  | cons y ys ih =>
    have hy := List.pairwise_cons.mp h
    simp only [insertName]
    split
    · next hxy =>
      refine List.pairwise_cons.mpr ⟨?_, h⟩
      intro z hz
      rcases List.mem_cons.mp hz with rfl | hz
      · exact hxy
      · exact String.lt_trans hxy (hy.1 z hz)
    · split
      · exact h
      · next hlt hne =>
        refine List.pairwise_cons.mpr ⟨?_, ih hy.2⟩
        intro z hz
        rcases mem_insertName.mp hz with rfl | hz
        · exact Std.lt_of_le_of_ne (Std.not_lt.mp hlt) (Ne.symm hne)
        · exact hy.1 z hz

structure NameSet where
  /-- The members, ascending. -/
  toList : List String
  ascending : toList.Pairwise (· < ·)
deriving DecidableEq

namespace NameSet

instance : Membership String NameSet where
  mem s x := x ∈ s.toList

theorem mem_def {x : String} {s : NameSet} : x ∈ s ↔ x ∈ s.toList := Iff.rfl

instance (x : String) (s : NameSet) : Decidable (x ∈ s) :=
  inferInstanceAs (Decidable (x ∈ s.toList))

def empty : NameSet :=
  ⟨[], List.Pairwise.nil⟩

instance : EmptyCollection NameSet := ⟨empty⟩

instance : Inhabited NameSet := ⟨empty⟩

@[simp] theorem not_mem_empty {x : String} : ¬ x ∈ (∅ : NameSet) := by
  intro h
  exact absurd (mem_def.mp h) (by simp [EmptyCollection.emptyCollection, empty])

def insert (s : NameSet) (x : String) : NameSet :=
  ⟨insertName x s.toList, pairwise_insertName s.ascending⟩

@[simp] theorem mem_insert {s : NameSet} {x z : String} : z ∈ s.insert x ↔ z = x ∨ z ∈ s :=
  mem_insertName

def erase (s : NameSet) (x : String) : NameSet :=
  ⟨s.toList.filter (· != x), s.ascending.filter _⟩

@[simp] theorem mem_erase {s : NameSet} {x z : String} : z ∈ s.erase x ↔ z ∈ s ∧ z ≠ x := by
  simp [mem_def, erase]

/-- Both sets together. -/
def union (s t : NameSet) : NameSet :=
  t.toList.foldl insert s

theorem mem_foldl_insert {xs : List String} {s : NameSet} {z : String} :
    z ∈ xs.foldl insert s ↔ z ∈ s ∨ z ∈ xs := by
  induction xs generalizing s with
  | nil => simp
  | cons x xs ih =>
    simp only [List.foldl_cons, ih, mem_insert, List.mem_cons]
    constructor
    · rintro ((h | h) | h) <;> simp [h]
    · rintro (h | h | h) <;> simp [h]

@[simp] theorem mem_union {s t : NameSet} {z : String} : z ∈ s.union t ↔ z ∈ s ∨ z ∈ t :=
  mem_foldl_insert

/-- The members of the first set that the second does not have. -/
def diff (s t : NameSet) : NameSet :=
  ⟨s.toList.filter fun x => !t.toList.contains x, s.ascending.filter _⟩

@[simp] theorem mem_diff {s t : NameSet} {z : String} : z ∈ s.diff t ↔ z ∈ s ∧ ¬ z ∈ t := by
  simp [mem_def, diff]

def ofList (xs : List String) : NameSet :=
  xs.foldl insert ∅

@[simp] theorem mem_ofList {xs : List String} {z : String} : z ∈ ofList xs ↔ z ∈ xs := by
  simp [ofList, mem_foldl_insert]

/-- The members of any of the sets. -/
def unions (sets : List NameSet) : NameSet :=
  sets.foldl union ∅

theorem mem_foldl_union {sets : List NameSet} {s : NameSet} {z : String} :
    z ∈ sets.foldl union s ↔ z ∈ s ∨ ∃ t ∈ sets, z ∈ t := by
  induction sets generalizing s with
  | nil => simp
  | cons t sets ih =>
    simp only [List.foldl_cons, ih, mem_union, List.mem_cons, exists_eq_or_imp]
    constructor
    · rintro ((h | h) | h) <;> simp [h]
    · rintro (h | h | h) <;> simp [h]

@[simp] theorem mem_unions {sets : List NameSet} {z : String} :
    z ∈ unions sets ↔ ∃ t ∈ sets, z ∈ t := by
  simp [unions, mem_foldl_union]

/-- The members between braces. -/
def text (s : NameSet) : String :=
  "\x7b" ++ ", ".intercalate s.toList ++ "\x7d"

end NameSet

end JavaMinus
