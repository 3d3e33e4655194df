import BootTree.Proofs.Edma.Removal

/-!
# BootTree.Proofs.Edma.Compaction

What compacting an array copies, said of the array's own cells and bytes, and compacting twice. The
second pass cuts what the first one wrote into records or strings again; it finds those that the
first pass left, so its indices count these, and one pass that drops both lots comes to the same.

* `RemovalSet.remaining`: the indices that are left; `RemovalSet.map_some_survivors` says that what
  is left of a list is what stands there.
* `RemovalSet.followedBy`: what two passes drop; `RemovalSet.survivors_survivors`.
* `splitRecords_eq`: records by their position.
* `StringList.CutInto`: a list of strings and its entries, each with its terminator.
* `RemovalSet.compactions`: what one pass appends, and that two passes are one.
-/

namespace BootTree

namespace RemovalSet

variable {α : Type} {set first second : RemovalSet} {count : Nat}

/-! ## Indices that are left -/

/-- The indices of `count` entries that are not in the set, in order. -/
def remaining (set : RemovalSet) (count : Nat) : List Nat :=
  (List.range count).filter fun i => !set.contains i

theorem mem_remaining {i : Nat} : i ∈ set.remaining count ↔ i < count ∧ i ∉ set.indices := by
  simp [remaining, contains]

theorem sorted_remaining (set : RemovalSet) (count : Nat) :
    (set.remaining count).Pairwise (· < ·) :=
  List.pairwise_lt_range.filter _

theorem map_some_survivors (set : RemovalSet) (entries : List α) :
    (set.survivors entries).map some = (set.remaining entries.length).map (entries[·]?) := by
  have hplace : ∀ entry ∈ entries.zipIdx.filter fun entry => !set.contains entry.2,
      some entry.1 = entries[entry.2]? := by
    intro entry hentry
    exact (List.mk_mem_zipIdx_iff_getElem?.1 (List.mem_filter.1 hentry).1).symm
  rw [survivors, remaining, List.range_eq_range', ← List.zipIdx_map_snd, List.filter_map,
    List.map_map, List.map_map]
  exact List.map_congr_left hplace

theorem survivors_range (set : RemovalSet) (count : Nat) :
    set.survivors (List.range count) = set.remaining count := by
  apply List.map_injective_iff.2 (Option.some_injective Nat)
  rw [map_some_survivors, List.length_range]
  apply List.map_congr_left
  intro i hi
  exact List.getElem?_range (mem_remaining.1 hi).1

theorem mem_survivors {entries : List α} {x : α} :
    x ∈ set.survivors entries ↔ ∃ i, entries[i]? = some x ∧ i ∉ set.indices := by
  rw [← List.mem_map_of_injective (Option.some_injective α), map_some_survivors, List.mem_map]
  constructor
  · rintro ⟨i, hi, hx⟩
    exact ⟨i, hx, (mem_remaining.1 hi).2⟩
  · rintro ⟨i, hx, hi⟩
    exact ⟨i, mem_remaining.2 ⟨(List.getElem?_eq_some_iff.1 hx).1, hi⟩, hx⟩

/-! ## Dropping twice -/

/-- What `first` drops from `count` entries, and what `second` drops from those that are left. The
indices of the second set count only these; one that is behind the last of them drops nothing. -/
def followedBy (first second : RemovalSet) (count : Nat) : RemovalSet :=
  ofList (first.indices ++ second.indices.filterMap fun i => (first.remaining count)[i]?)

theorem survivors_remaining (first second : RemovalSet) (count : Nat) :
    second.survivors (first.remaining count) = (first.followedBy second count).remaining count := by
  have hsorted := sorted_remaining first count
  have hnodup : (first.remaining count).Nodup := hsorted.imp Nat.ne_of_lt
  have hmem (k : Nat) : k ∈ second.survivors (first.remaining count) ↔
      k ∈ (first.followedBy second count).remaining count := by
    rw [mem_survivors, mem_remaining, followedBy, mem_ofList, List.mem_append, List.mem_filterMap,
      not_or, ← and_assoc, ← mem_remaining]
    constructor
    · rintro ⟨i, hi, hkept⟩
      refine ⟨List.mem_of_getElem? hi, ?_⟩
      rintro ⟨j, hj, hk⟩
      have hsame : i = j := by
        obtain ⟨hlt, -⟩ := List.getElem?_eq_some_iff.1 hi
        exact (List.getElem?_inj hlt hnodup).1 (hi.trans hk.symm)
      exact hkept (hsame ▸ hj)
    · rintro ⟨hk, hkept⟩
      obtain ⟨i, hi⟩ := List.mem_iff_getElem?.1 hk
      exact ⟨i, hi, fun hdropped => hkept ⟨i, hdropped, hi⟩⟩
  have hleft : (second.survivors (first.remaining count)).Pairwise (· < ·) :=
    hsorted.sublist second.survivors_sublist
  exact hleft.eq_of_mem_iff (sorted_remaining _ count) hmem

/-- **Dropping entries twice is dropping them once.** -/
theorem survivors_survivors (first second : RemovalSet) (entries : List α) :
    second.survivors (first.survivors entries) =
      (first.followedBy second entries.length).survivors entries := by
  apply List.map_injective_iff.2 (Option.some_injective α)
  calc (second.survivors (first.survivors entries)).map some
      = second.survivors ((first.remaining entries.length).map (entries[·]?)) := by
        rw [← survivors_map, map_some_survivors]
    _ = ((first.followedBy second entries.length).remaining entries.length).map (entries[·]?) := by
        rw [survivors_map, survivors_remaining]
    _ = ((first.followedBy second entries.length).survivors entries).map some := by
        rw [map_some_survivors]

end RemovalSet

/-! ## Records -/

section Records

variable {α : Type} {stride : Nat}

/-- The cells of the record at an index. -/
def recordAt (stride : Nat) (cells : List α) (i : Nat) : List α :=
  (cells.drop (stride * i)).take stride

/-- The cells behind the last complete record. -/
def incomplete (stride : Nat) (cells : List α) : List α :=
  cells.drop (stride * (cells.length / stride))

theorem splitRecords_eq (hstride : 0 < stride) (cells : List α) : splitRecords stride cells =
    ((List.range (cells.length / stride)).map (recordAt stride cells), incomplete stride cells) := by
  fun_induction splitRecords stride cells with
  | case1 cells h records rest hsplit ih =>
    have hcount : cells.length / stride = (cells.drop stride).length / stride + 1 := by
      rw [List.length_drop, Nat.div_eq_sub_div hstride h.2]
    obtain ⟨rfl, rfl⟩ := Prod.mk.inj (hsplit.symm.trans ih)
    have hnext : recordAt stride (cells.drop stride) = recordAt stride cells ∘ Nat.succ := by
      funext i
      rw [recordAt, List.drop_drop, Function.comp_apply, recordAt, Nat.mul_succ, Nat.add_comm]
    have hbehind : incomplete stride (cells.drop stride) = incomplete stride cells := by
      rw [incomplete, List.drop_drop, incomplete, hcount, Nat.mul_succ, Nat.add_comm]
    rw [hnext, hbehind, hcount, List.range_succ_eq_map, List.map_cons, List.map_map]
    rfl
  | case2 cells h =>
    have hfew : cells.length / stride = 0 := Nat.div_eq_of_lt (by omega)
    rw [incomplete, hfew]
    rfl

theorem survivors_records (hstride : 0 < stride) (cells : List α) (set : RemovalSet) :
    set.survivors (splitRecords stride cells).1 =
      (set.remaining (cells.length / stride)).map (recordAt stride cells) := by
  rw [splitRecords_eq hstride, RemovalSet.survivors_map, RemovalSet.survivors_range]

theorem length_records (hstride : 0 < stride) (cells : List α) :
    (splitRecords stride cells).1.length = cells.length / stride := by
  rw [splitRecords_eq hstride, List.length_map, List.length_range]

theorem appendRecords?_eq (hstride : 0 < stride) (cells out : List α) (set : RemovalSet) :
    appendRecords? stride cells set out =
      some ⟨(set.remaining (cells.length / stride)).length,
        out ++ ((set.remaining (cells.length / stride)).flatMap (recordAt stride cells) ++
          incomplete stride cells)⟩ := by
  rw [appendRecords?, if_neg (Nat.ne_of_gt hstride), keptRecords, compactRecords,
    survivors_records hstride, List.length_map]
  dsimp only
  rw [survivors_records hstride, ← List.flatMap_def, splitRecords_eq hstride]

/-- The second pass finds the records that the first one left. -/
theorem appendRecords?_twice (hstride : 0 < stride) (cells out : List α)
    (first second : RemovalSet) :
    appendRecords? stride (compactRecords stride cells first) second out =
      appendRecords? stride cells (first.followedBy second (cells.length / stride)) out := by
  have hrecords : second.survivors (splitRecords stride (compactRecords stride cells first)).1 =
      (first.followedBy second (cells.length / stride)).survivors (splitRecords stride cells).1 := by
    rw [splitRecords_compactRecords hstride, RemovalSet.survivors_survivors, length_records hstride]
  have hrest : (splitRecords stride (compactRecords stride cells first)).2 =
      (splitRecords stride cells).2 := by
    rw [splitRecords_compactRecords hstride]
  simp only [appendRecords?, keptRecords, compactRecords.eq_def _ _ second,
    compactRecords.eq_def _ cells (first.followedBy _ _), hrecords, hrest]

end Records

/-! ## Strings -/

/-- A list of strings and its entries, each with its terminator. Bytes behind the last terminator
are an entry of their own. -/
inductive StringList.CutInto : Bytes → List Bytes → Prop where
  | nil : CutInto [] []
  | tail {tail : Bytes} : tail ≠ [] → 0 ∉ tail → CutInto tail [tail]
  | entry {entry rest : Bytes} {pieces : List Bytes} : 0 ∉ entry → CutInto rest pieces →
      CutInto (entry ++ 0 :: rest) ((entry ++ [0]) :: pieces)

namespace StringList

variable {value : Bytes}

theorem pieces_append {entry : Bytes} (h : 0 ∉ entry) (rest : Bytes) :
    pieces (entry ++ 0 :: rest) = (entry ++ [0]) :: pieces rest := by
  rw [pieces, split_append h, pieces]
  rfl

theorem pieces_of_not_mem (hne : value ≠ []) (h : 0 ∉ value) : pieces value = [value] := by
  rw [pieces, split_of_not_mem h]
  dsimp only
  rw [if_neg hne]
  rfl

/-- Induction on the entries of a list: what holds of bytes without a terminator, and of an entry in
front of a list of which it holds, holds of every list. -/
@[elab_as_elim]
theorem entries_induction {motive : Bytes → Prop}
    (tail : ∀ tail, 0 ∉ tail → motive tail)
    (entry : ∀ entry rest, 0 ∉ entry → motive rest → motive (entry ++ 0 :: rest))
    (value : Bytes) : motive value := by
  by_cases hmem : 0 ∈ value
  · obtain ⟨front, rest, rfl, hfront⟩ := List.eq_append_cons_of_mem hmem
    exact entry front rest hfront (entries_induction tail entry rest)
  · exact tail value hmem
termination_by value.length
decreasing_by
  subst_vars
  rw [List.length_append, List.length_cons]
  omega

theorem cutInto_pieces (value : Bytes) : CutInto value (pieces value) := by
  induction value using entries_induction with
  | tail tail hmem =>
    by_cases hne : tail = []
    · subst hne
      exact .nil
    · rw [pieces_of_not_mem hne hmem]
      exact .tail hne hmem
  | entry entry rest hentry ih =>
    rw [pieces_append hentry]
    exact .entry hentry ih

theorem cutInto_iff {entries : List Bytes} : CutInto value entries ↔ entries = pieces value := by
  constructor
  · intro h
    induction h with
    | nil => rfl
    | tail hne hmem => rw [pieces_of_not_mem hne hmem]
    | entry hentry _ ih => rw [pieces_append hentry, ih]
  · rintro rfl
    exact cutInto_pieces value

end StringList

theorem RemovalSet.survivors_eq_flatMap {α : Type} (set : RemovalSet) (entries : List (List α)) :
    (set.survivors entries).flatten =
      (set.remaining entries.length).flatMap fun i => entries[i]?.getD [] := by
  have hentries : set.survivors entries =
      (set.remaining entries.length).map fun i => entries[i]?.getD [] := by
    have := congrArg (List.map (·.getD [])) (set.map_some_survivors entries)
    simpa [List.map_map, Function.comp_def] using this
  rw [hentries, List.flatMap_def]

/-- What is left of a list of strings has the entries that are left. By induction on the entries:
one that is left keeps its terminator, so the next one begins where it did. -/
theorem StringList.CutInto.survivors {value : Bytes} {entries : List Bytes}
    (h : StringList.CutInto value entries) (set : RemovalSet) :
    StringList.CutInto (set.survivors entries).flatten (set.survivors entries) := by
  induction h generalizing set with
  | nil => exact .nil
  | @tail tail hne hmem =>
    rw [RemovalSet.survivors_cons_eq]
    cases set.contains 0 with
    | true => exact .nil
    | false =>
      change StringList.CutInto [tail].flatten [tail]
      rw [List.flatten_singleton]
      exact .tail hne hmem
  | entry hentry _ ih =>
    rw [RemovalSet.survivors_cons_eq]
    cases set.contains 0 with
    | true => exact ih _
    | false => simpa using .entry hentry (ih (set.rebased 1))

theorem pieces_compactStrings (list : Bytes) (set : RemovalSet) :
    StringList.pieces (compactStrings list set) = set.survivors (StringList.pieces list) :=
  (StringList.cutInto_iff.1 ((StringList.cutInto_pieces list).survivors set)).symm

/-- The second pass finds the strings that the first one left. -/
theorem compactStrings_twice (list : Bytes) (first second : RemovalSet) :
    compactStrings (compactStrings list first) second =
      compactStrings list (first.followedBy second (StringList.pieces list).length) := by
  rw [compactStrings, pieces_compactStrings, RemovalSet.survivors_survivors, compactStrings]

/-- **Compacting once and twice.** A pass over cells appends the records whose index is not in the
set, in order, and behind them the cells of the incomplete record, and counts those records. A pass
over a list of strings appends the entries that are left, and counts their bytes. A second pass over
what a first one wrote, with indices that count what that one left, comes to one pass that drops
both. -/
theorem RemovalSet.compactions {α : Type} {stride : Nat} (hstride : 0 < stride)
    (cells out : List α) (list written : Bytes) (first second : RemovalSet) :
    (appendRecords? stride cells first out =
        some ⟨(first.remaining (cells.length / stride)).length,
          out ++ ((first.remaining (cells.length / stride)).flatMap (recordAt stride cells) ++
            incomplete stride cells)⟩ ∧
      ((appendRecords? stride cells first []).bind fun passed =>
          appendRecords? stride passed.contents second out) =
        appendRecords? stride cells (first.followedBy second (cells.length / stride)) out) ∧
    ∃ entries, (∀ others, StringList.CutInto list others ↔ others = entries) ∧
      (∃ kept, kept = (first.remaining entries.length).flatMap (fun i => entries[i]?.getD []) ∧
        appendStrings list first written = ⟨kept.length, written ++ kept⟩) ∧
      appendStrings (appendStrings list first []).contents second written =
        appendStrings list (first.followedBy second entries.length) written := by
  refine ⟨⟨appendRecords?_eq hstride cells out first, ?_⟩, StringList.pieces list,
    fun _ => StringList.cutInto_iff, ⟨_, rfl, ?_⟩, ?_⟩
  · rw [appendRecords?, if_neg (Nat.ne_of_gt hstride), Option.bind_some]
    exact appendRecords?_twice hstride cells out first second
  · rw [← first.survivors_eq_flatMap]
    rfl
  · simp only [appendStrings, List.nil_append, compactStrings_twice]

/-- Of three pairs and one more cell, and of two strings and a tail, the first goes and then the
last of those that are left; an index that is behind them drops nothing. -/
theorem RemovalSet.compactions_pairs :
    0 < 2 ∧
    appendRecords? 2 [10, 11, 20, 21, 30, 31, 40] (ofList [0, 9]) [7] =
      some ⟨2, [7, 20, 21, 30, 31, 40]⟩ ∧
    (appendRecords? 2 [10, 11, 20, 21, 30, 31, 40] (ofList [0, 9]) []).bind (fun passed =>
      appendRecords? 2 passed.contents (ofList [1, 5]) [7]) = some ⟨1, [7, 20, 21, 40]⟩ ∧
    appendStrings [97, 0, 0, 98] (ofList [0, 9]) [7] = ⟨2, [7, 0, 98]⟩ ∧
    appendStrings (appendStrings [97, 0, 0, 98] (ofList [0, 9]) []).contents (ofList [1, 5]) [7] =
      ⟨1, [7, 0]⟩ := by
  have hpair : 0 < 2 := by decide
  have hcut : StringList.CutInto ([97] ++ 0 :: ([] ++ 0 :: [98])) [[97, 0], [0], [98]] :=
    .entry (by decide) (.entry (by decide) (.tail (by decide) (by decide)))
  have hpasses (set second : RemovalSet) :=
    compactions hpair [10, 11, 20, 21, 30, 31, 40] [7] [97, 0, 0, 98] [7] set second
  obtain ⟨⟨hfirst, htwice⟩, entries, hentries, ⟨kept, hkept, hstrings⟩, htwiceStrings⟩ :=
    hpasses (ofList [0, 9]) (ofList [1, 5])
  obtain rfl := (hentries _).1 hcut
  obtain ⟨⟨honce, -⟩, entries', hentries', ⟨kept', hkept', honceStrings⟩, -⟩ :=
    hpasses ((ofList [0, 9]).followedBy (ofList [1, 5]) 3) empty
  obtain rfl := (hentries' _).1 hcut
  subst hkept hkept'
  exact ⟨hpair, hfirst.trans (by decide), htwice.trans (honce.trans (by decide)),
    hstrings.trans (by decide), htwiceStrings.trans (honceStrings.trans (by decide))⟩

end BootTree
