import BootTree.Value.StringList

/-!
# BootTree.Edma.Removal

Dropping entries from arrays that run in parallel, by their indices.

* `RemovalSet` — the indices to drop, in increasing order and without repetition
  (`mem_insert`, `sorted_insert`).
* `RemovalSet.survivors` — what is left of a list.
* `compactRecords`, `compactStrings` — what is left of an array of fixed-size records, and of a list
  of strings.
* `appendRecords?`, `appendStrings` — the same, put behind what is there already and counted.
-/

namespace BootTree

structure RemovalSet where
  indices : List Nat
  deriving DecidableEq, Repr

namespace RemovalSet

def empty : RemovalSet := ⟨[]⟩

def insertSorted (index : Nat) : List Nat → List Nat
  | [] => [index]
  | first :: rest =>
    if index < first then index :: first :: rest
    else if index = first then first :: rest
    else first :: insertSorted index rest

def insert (set : RemovalSet) (index : Nat) : RemovalSet := ⟨insertSorted index set.indices⟩

def ofList (indices : List Nat) : RemovalSet := indices.foldl insert empty

def contains (set : RemovalSet) (index : Nat) : Bool := set.indices.contains index

def size (set : RemovalSet) : Nat := set.indices.length

/-- The same entries in an array that lacks the first `base` ones, which have no index there. -/
def rebased (set : RemovalSet) (base : Nat) : RemovalSet :=
  ⟨set.indices.filterMap fun index => if base ≤ index then some (index - base) else none⟩

theorem mem_insertSorted {index i : Nat} {indices : List Nat} :
    i ∈ insertSorted index indices ↔ i = index ∨ i ∈ indices := by
  induction indices with
  | nil => simp [insertSorted]
  | cons first rest ih =>
    simp only [insertSorted]
    split
    · simp
    · split
      · rename_i h; subst h; simp
      · simp only [List.mem_cons, ih]
        constructor
        · rintro (h | h | h) <;> simp [h]
        · rintro (h | h | h) <;> simp [h]

theorem sorted_insertSorted {index : Nat} {indices : List Nat} (h : indices.Pairwise (· < ·)) :
    (insertSorted index indices).Pairwise (· < ·) := by
  induction indices with
  | nil => simp [insertSorted]
  | cons first rest ih =>
    obtain ⟨h₁, h₂⟩ := List.pairwise_cons.1 h
    simp only [insertSorted]
    split
    · rename_i hlt
      refine List.pairwise_cons.2 ⟨?_, h⟩
      intro i hi
      rcases List.mem_cons.1 hi with rfl | hi
      · exact hlt
      · exact Nat.lt_trans hlt (h₁ i hi)
    · split
      · exact h
      · refine List.pairwise_cons.2 ⟨?_, ih h₂⟩
        intro i hi
        rcases mem_insertSorted.1 hi with rfl | hi
        · omega
        · exact h₁ i hi

/-- What is left of a list when the entries at the indices of the set are dropped. -/
def survivors {α : Type} (set : RemovalSet) (entries : List α) : List α :=
  (entries.zipIdx.filter fun entry => !set.contains entry.2).map Prod.fst

end RemovalSet

/-! ## Arrays -/

/-- The complete records of `stride` cells, and the cells behind the last of them. There are no
records of zero cells. -/
def splitRecords {α : Type} (stride : Nat) (cells : List α) : List (List α) × List α :=
  if 0 < stride ∧ stride ≤ cells.length then
    let (records, rest) := splitRecords stride (cells.drop stride)
    (cells.take stride :: records, rest)
  else ([], cells)
termination_by cells.length
decreasing_by simp only [List.length_drop]; omega

/-- The records whose index is not in the set, and the cells behind the last complete record. -/
def compactRecords {α : Type} (stride : Nat) (cells : List α) (set : RemovalSet) : List α :=
  let (records, rest) := splitRecords stride cells
  (set.survivors records).flatten ++ rest

def keptRecords {α : Type} (stride : Nat) (cells : List α) (set : RemovalSet) : Nat :=
  (set.survivors (splitRecords stride cells).1).length

def compactStrings (list : Bytes) (set : RemovalSet) : Bytes :=
  (set.survivors (StringList.pieces list)).flatten

/-- An array behind which something was put, and how much of that was kept. -/
structure Appended (α : Type) where
  kept : Nat
  contents : List α
  deriving DecidableEq, Repr

/-- Put what is left of an array of records behind `out`, and count the records that were kept.
Records of zero cells cannot be counted, so there is no answer for them. -/
def appendRecords? {α : Type} (stride : Nat) (cells : List α) (set : RemovalSet) (out : List α) :
    Option (Appended α) :=
  if stride = 0 then none
  else some ⟨keptRecords stride cells set, out ++ compactRecords stride cells set⟩

/-- Put what is left of a list of strings behind `out`, and count its bytes. -/
def appendStrings (list : Bytes) (set : RemovalSet) (out : Bytes) : Appended UInt8 :=
  ⟨(compactStrings list set).length, out ++ compactStrings list set⟩

theorem appendRecords?_eq_none_iff {α : Type} {stride : Nat} {cells out : List α}
    {set : RemovalSet} : appendRecords? stride cells set out = none ↔ stride = 0 := by
  simp [appendRecords?]

theorem flatten_splitRecords {α : Type} (stride : Nat) (cells : List α) :
    (splitRecords stride cells).1.flatten ++ (splitRecords stride cells).2 = cells := by
  fun_induction splitRecords stride cells with
  | case1 cells h records rest hsplit ih =>
    rw [hsplit] at ih
    simp [List.append_assoc, ih]
  | case2 => rfl

end BootTree
