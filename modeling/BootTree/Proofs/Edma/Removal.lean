import BootTree.Edma.Removal
import Mathlib

/-!
# BootTree.Proofs.Edma.Removal

Dropping entries by their indices from arrays that run in parallel. Which entries are left depends
on which indices are in the set only, and arrays whose records describe the same things lose the
same of them.

* `RemovalSet.mem_ofList`, `RemovalSet.nodup_ofList`: the indices of a set.
* `RemovalSet.survivors_eq_take_append_filter`: what is left when entries from some index on are
  dropped for what they are.
* `RemovalSet.length_survivors_add_size`: how many entries are left.
* `LeftOut`: a list without some entries of which something holds.
* `compactRecords_flatten`, `splitRecords_compactRecords`, `compactStrings_join`: what is left of
  records and of strings.
-/

namespace BootTree

namespace RemovalSet

variable {α β : Type} {set : RemovalSet} {entries : List α}

/-! ## Indices -/

theorem mem_foldl_insert {indices : List Nat} {set : RemovalSet} {i : Nat} :
    i ∈ (indices.foldl insert set).indices ↔ i ∈ indices ∨ i ∈ set.indices := by
  induction indices generalizing set with
  | nil => simp
  | cons j js ih =>
    rw [List.foldl_cons, ih, insert, mem_insertSorted, List.mem_cons]
    tauto

theorem mem_ofList {indices : List Nat} {i : Nat} :
    i ∈ (ofList indices).indices ↔ i ∈ indices := by
  rw [ofList, mem_foldl_insert]
  simp [empty]

theorem sorted_foldl_insert {indices : List Nat} {set : RemovalSet}
    (h : set.indices.Pairwise (· < ·)) : (indices.foldl insert set).indices.Pairwise (· < ·) := by
  induction indices generalizing set with
  | nil => exact h
  | cons j js ih => exact ih (sorted_insertSorted h)

theorem nodup_ofList (indices : List Nat) : (ofList indices).indices.Nodup := by
  have hsorted : (ofList indices).indices.Pairwise (· < ·) := sorted_foldl_insert .nil
  refine hsorted.imp ?_
  intro i j hlt
  exact Nat.ne_of_lt hlt

theorem contains_eq_true {i : Nat} : set.contains i = true ↔ i ∈ set.indices := by
  simp [contains]

theorem mem_rebased {base i : Nat} : i ∈ (set.rebased base).indices ↔ i + base ∈ set.indices := by
  simp only [rebased, List.mem_filterMap]
  constructor
  · rintro ⟨j, hj, heq⟩
    by_cases hle : base ≤ j
    · rw [if_pos hle, Option.some.injEq] at heq
      rw [← heq, Nat.sub_add_cancel hle]
      exact hj
    · rw [if_neg hle] at heq
      cases heq
  · intro h
    exact ⟨i + base, h, by simp⟩

theorem contains_rebased (base i : Nat) : (set.rebased base).contains i = set.contains (i + base) := by
  rw [Bool.eq_iff_iff, contains_eq_true, contains_eq_true, mem_rebased]

/-! ## Entries that are left -/

/-- Dropping, from some index on, the entries of which something holds. -/
theorem filter_zipIdx (start : Nat) (p : α → Bool) (entries : List α) (first : Nat) :
    ((entries.zipIdx first).filter fun entry => !(decide (start ≤ entry.2) && p entry.1)).map
        Prod.fst =
      entries.take (start - first) ++ (entries.drop (start - first)).filter (!p ·) := by
  induction entries generalizing first with
  | nil => simp
  | cons x xs ih =>
    rw [List.zipIdx_cons, List.filter_cons]
    by_cases hle : start ≤ first
    · have hzero : start - first = 0 := by omega
      have hnext : start - (first + 1) = 0 := by omega
      have hrest := ih (first + 1)
      rw [hnext, List.take_zero, List.drop_zero, List.nil_append] at hrest
      have hhere : (!(decide (start ≤ first) && p x)) = !p x := by simp [hle]
      rw [hzero, List.take_zero, List.drop_zero, List.nil_append, List.filter_cons]
      simp only [hhere]
      split
      · rw [List.map_cons, hrest]
      · exact hrest
    · have hstep : start - first = (start - (first + 1)) + 1 := by omega
      rw [hstep, List.take_succ_cons, List.drop_succ_cons, List.cons_append, ← ih (first + 1)]
      simp [hle]

theorem survivors_eq_take_append_filter {start : Nat} {p : α → Bool}
    (h : ∀ i x, entries[i]? = some x → set.contains i = (decide (start ≤ i) && p x)) :
    set.survivors entries = entries.take start ++ (entries.drop start).filter (!p ·) := by
  have hfilter := filter_zipIdx start p entries 0
  rw [Nat.sub_zero] at hfilter
  have hsame : ∀ entry ∈ entries.zipIdx,
      (!set.contains entry.2) = !(decide (start ≤ entry.2) && p entry.1) := by
    intro entry hentry
    rw [h entry.2 entry.1 (List.mk_mem_zipIdx_iff_getElem?.1 hentry)]
  rw [← hfilter, survivors, List.filter_congr hsame]

theorem survivors_map (f : α → β) (set : RemovalSet) (entries : List α) :
    set.survivors (entries.map f) = (set.survivors entries).map f := by
  simp only [survivors, List.zipIdx_map, List.filter_map, List.map_map]
  rfl

/-- The entry at the front is left unless its index is in the set; behind it indices count anew. -/
theorem survivors_cons_eq (set : RemovalSet) (x : α) (entries : List α) :
    set.survivors (x :: entries) =
      (if set.contains 0 then [] else [x]) ++ (set.rebased 1).survivors entries := by
  have hbehind : ((entries.zipIdx 1).filter fun entry => !set.contains entry.2).map Prod.fst =
      (set.rebased 1).survivors entries := by
    rw [survivors, List.zipIdx_succ, List.filter_map, List.map_map]
    simp only [contains_rebased]
    rfl
  rw [← hbehind, survivors, List.zipIdx_cons, List.filter_cons]
  cases set.contains 0 <;> simp

theorem survivors_cons (h : set.contains 0 = false) (x : α) (entries : List α) :
    set.survivors (x :: entries) = x :: (set.rebased 1).survivors entries := by
  rw [survivors_cons_eq, h]
  rfl

theorem length_survivors_add_size (hnodup : set.indices.Nodup)
    (hlt : ∀ i ∈ set.indices, i < entries.length) :
    (set.survivors entries).length + set.size = entries.length := by
  have hdropped : ((List.range entries.length).filter set.contains).length = set.size := by
    have hmem : ∀ i, i ∈ (List.range entries.length).filter set.contains ↔ i ∈ set.indices := by
      intro i
      rw [List.mem_filter, List.mem_range, contains_eq_true]
      constructor
      · intro h
        exact h.2
      · intro h
        exact ⟨hlt i h, h⟩
    exact ((List.perm_ext_iff_of_nodup (List.nodup_range.filter _) hnodup).2 hmem).length_eq
  have hleft : (set.survivors entries).length =
      ((List.range entries.length).filter fun i => !set.contains i).length := by
    rw [survivors, List.length_map, List.range_eq_range', ← List.zipIdx_map_snd, List.filter_map,
      List.length_map]
    rfl
  have hall := List.length_eq_length_filter_add (l := List.range entries.length) set.contains
  rw [List.length_range] at hall
  omega

end RemovalSet

/-- The second list is the first one without some entries of which `p` holds. -/
inductive LeftOut {α : Type} (p : α → Prop) : List α → List α → Prop where
  | nil : LeftOut p [] []
  | keep {before after : List α} (x : α) : LeftOut p before after →
      LeftOut p (x :: before) (x :: after)
  | drop {before after : List α} {x : α} : p x → LeftOut p before after →
      LeftOut p (x :: before) after

namespace LeftOut

variable {α : Type} {p q : α → Prop} {before after last : List α}

theorem refl (p : α → Prop) (entries : List α) : LeftOut p entries entries := by
  induction entries with
  | nil => exact .nil
  | cons x xs ih => exact .keep x ih

theorem mono (hpq : ∀ x, p x → q x) (h : LeftOut p before after) : LeftOut q before after := by
  induction h with
  | nil => exact .nil
  | keep x _ ih => exact .keep x ih
  | drop hx _ ih => exact .drop (hpq _ hx) ih

theorem trans (h : LeftOut p before after) (h' : LeftOut p after last) : LeftOut p before last := by
  induction h generalizing last with
  | nil => exact h'
  | keep x _ ih =>
    cases h' with
    | keep _ hrest => exact .keep x (ih hrest)
    | drop hx hrest => exact .drop hx (ih hrest)
  | drop hx _ ih => exact .drop hx (ih h')

/-- Dropping entries whose index is in a set. -/
theorem survivors {set : RemovalSet} {entries : List α}
    (h : ∀ i x, entries[i]? = some x → set.contains i = true → p x) :
    LeftOut p entries (set.survivors entries) := by
  suffices hfrom : ∀ first, (∀ i x, entries[i]? = some x → set.contains (first + i) = true → p x) →
      LeftOut p entries (((entries.zipIdx first).filter fun entry => !set.contains entry.2).map
        Prod.fst) by
    apply hfrom 0
    intro i x hx hmem
    rw [Nat.zero_add] at hmem
    exact h i x hx hmem
  clear h
  induction entries with
  | nil =>
    intro first _
    exact .nil
  | cons x xs ih =>
    intro first h
    have hrest := ih (first + 1) (by
      intro i y hy hmem
      refine h (i + 1) y hy ?_
      rwa [Nat.add_assoc, Nat.add_comm 1] at hmem)
    rw [List.zipIdx_cons, List.filter_cons]
    by_cases hmem : set.contains first = true
    · rw [if_neg (by simp [hmem])]
      exact .drop (h 0 x rfl hmem) hrest
    · rw [if_pos (by simp [hmem])]
      exact .keep x hrest

end LeftOut

/-! ## Arrays -/

theorem RemovalSet.survivors_sublist {α : Type} (set : RemovalSet) {entries : List α} :
    (set.survivors entries).Sublist entries := by
  have := (List.filter_sublist (l := entries.zipIdx)
    (p := fun entry => !set.contains entry.2)).map Prod.fst
  rwa [List.zipIdx_map_fst] at this

theorem length_survivors_flatten_le {α : Type} (set : RemovalSet) (entries : List (List α)) :
    (set.survivors entries).flatten.length ≤ entries.flatten.length := by
  exact set.survivors_sublist.flatten.length_le

theorem length_compactRecords_le {α : Type} (stride : Nat) (cells : List α) (set : RemovalSet) :
    (compactRecords stride cells set).length ≤ cells.length := by
  have hle := length_survivors_flatten_le set (splitRecords stride cells).1
  have hall := congrArg List.length (flatten_splitRecords stride cells)
  simp only [compactRecords, List.length_append] at hall ⊢
  omega

theorem length_compactStrings_le (list : Bytes) (set : RemovalSet) :
    (compactStrings list set).length ≤ list.length := by
  have hle := length_survivors_flatten_le set (StringList.pieces list)
  rwa [StringList.flatten_pieces] at hle

theorem splitRecords_flatten_append {α : Type} {stride : Nat} {records : List (List α)}
    {rest : List α} (h : ∀ record ∈ records, record.length = stride) (hrest : rest.length < stride) :
    splitRecords stride (records.flatten ++ rest) = (records, rest) := by
  induction records with
  | nil => rw [splitRecords, List.flatten_nil, List.nil_append, if_neg (by omega)]
  | cons r rs ih =>
    have hr := h r List.mem_cons_self
    have hbehind : splitRecords stride (rs.flatten ++ rest) = (rs, rest) := by
      apply ih
      intro record hrecord
      exact h record (List.mem_cons_of_mem _ hrecord)
    rw [splitRecords, List.flatten_cons, List.append_assoc,
      if_pos (by rw [List.length_append]; omega), List.drop_left' hr, hbehind, List.take_left' hr]

theorem splitRecords_flatten {α : Type} {stride : Nat} (hstride : 0 < stride)
    {records : List (List α)} (h : ∀ record ∈ records, record.length = stride) :
    splitRecords stride records.flatten = (records, []) := by
  have := splitRecords_flatten_append h (List.length_nil.trans_lt hstride)
  rwa [List.append_nil] at this

theorem splitRecords_spec {α : Type} {stride : Nat} (hstride : 0 < stride) (cells : List α) :
    (∀ record ∈ (splitRecords stride cells).1, record.length = stride) ∧
      (splitRecords stride cells).2.length < stride := by
  fun_induction splitRecords stride cells with
  | case1 cells h records rest hsplit ih =>
    rw [hsplit] at ih
    refine ⟨?_, ih.2⟩
    intro record hrecord
    rcases List.mem_cons.1 hrecord with rfl | hrecord
    · exact List.length_take_of_le h.2
    · exact ih.1 record hrecord
  | case2 cells h =>
    refine ⟨?_, by dsimp only; omega⟩
    intro record hrecord
    cases hrecord

/-- The records of what is left are the records that are left. -/
theorem splitRecords_compactRecords {α : Type} {stride : Nat} (hstride : 0 < stride)
    (cells : List α) (set : RemovalSet) : splitRecords stride (compactRecords stride cells set) =
      (set.survivors (splitRecords stride cells).1, (splitRecords stride cells).2) := by
  obtain ⟨hrecords, hrest⟩ := splitRecords_spec hstride cells
  refine splitRecords_flatten_append ?_ hrest
  intro record hrecord
  exact hrecords record (set.survivors_sublist.subset hrecord)

theorem compactRecords_flatten {α : Type} {stride : Nat} (hstride : 0 < stride)
    {records : List (List α)} (h : ∀ record ∈ records, record.length = stride) (set : RemovalSet) :
    compactRecords stride records.flatten set = (set.survivors records).flatten := by
  rw [compactRecords, splitRecords_flatten hstride h]
  simp

theorem StringList.split_join {entries : List Bytes} (h : ∀ entry ∈ entries, 0 ∉ entry) :
    StringList.split (StringList.join entries) = (entries, []) := by
  induction entries with
  | nil => rfl
  | cons e es ih =>
    have hrest : StringList.split (StringList.join es) = (es, []) := by
      apply ih
      intro entry hentry
      exact h entry (List.mem_cons_of_mem _ hentry)
    have hjoin : StringList.join (e :: es) = e ++ 0 :: StringList.join es := by
      simp [StringList.join]
    rw [hjoin, StringList.split_append (h e List.mem_cons_self), hrest]

theorem compactStrings_join {entries : List Bytes} (h : ∀ entry ∈ entries, 0 ∉ entry)
    (set : RemovalSet) :
    compactStrings (StringList.join entries) set = StringList.join (set.survivors entries) := by
  rw [compactStrings, StringList.pieces, StringList.split_join h]
  simp only [if_true, List.append_nil, RemovalSet.survivors_map]
  rw [StringList.join, List.flatMap_def]

end BootTree
