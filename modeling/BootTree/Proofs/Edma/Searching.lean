import BootTree.Proofs.Edma.Removal

/-!
# BootTree.Proofs.Edma.Searching

Sets of indices that are searched by halving. A set looks an index up by a search in its list, and
inserts one where the search says it belongs. What a search answers in a list that is not sorted is
left open, so whatever makes a set has to keep the order. Inserting and rebasing do, whichever search
is used, and the sets are those that come of looking through the whole list.

* `SearchesSorted`: what a search answers in a sorted list; `halve`, one that meets this.
* `RemovalSet.insertBy`, `RemovalSet.containsBy`: inserting and looking up with a search.
* `RemovalSet.Made`: the sets that inserting and rebasing make, with the indices they stand for.
* `RemovalSet.collections`: what all of these sets have in common.
-/

namespace BootTree

/-! ## Searches in sorted lists -/

/-- What a search answers in a sorted list: a place of the entry, or, if the entry is not there, a
place at which it can be inserted so that the list stays sorted. -/
structure SearchesSorted (search : List Nat → Nat → Except Nat Nat) : Prop where
  found {indices : List Nat} {i place : Nat} : indices.Pairwise (· ≤ ·) →
    search indices i = .ok place → indices[place]? = some i
  missing {indices : List Nat} {i place : Nat} : indices.Pairwise (· ≤ ·) →
    search indices i = .error place →
      i ∉ indices ∧ place ≤ indices.length ∧ (indices.insertIdx place i).Pairwise (· ≤ ·)

/-- Halve the entries from `first` up to `last` until the entry is met or none is left. -/
def halve (indices : List Nat) (i first last : Nat) (hlast : last ≤ indices.length) :
    Except Nat Nat :=
  if h : first < last then
    let middle := first + (last - first) / 2
    have hmiddle : middle < indices.length := by omega
    if indices[middle] = i then .ok middle
    else if indices[middle] < i then halve indices i (middle + 1) last hlast
    else halve indices i first middle (by omega)
  else .error first
termination_by last - first

def halving (indices : List Nat) (i : Nat) : Except Nat Nat :=
  halve indices i 0 indices.length (Nat.le_refl _)

section Halving

variable {indices : List Nat} {i first last place : Nat} {hlast : last ≤ indices.length}

theorem getElem?_of_halve (h : halve indices i first last hlast = .ok place) :
    indices[place]? = some i := by
  fun_induction halve indices i first last hlast with
  | case1 first last hlast hlt middle hmiddle heq =>
    rw [← Except.ok.inj h, List.getElem?_eq_getElem hmiddle, heq]
  | case2 first last hlast hlt middle hmiddle hne hless ih => exact ih h
  | case3 first last hlast hlt middle hmiddle hne hless ih => exact ih h
  | case4 => cases h

/-- The entries in front of `first` stay smaller than the one that is looked for, and those from
`last` on larger. -/
theorem cut_of_halve (hsorted : indices.Pairwise (· ≤ ·)) (hle : first ≤ last)
    (hfront : ∀ entry ∈ indices.take first, entry < i)
    (hbehind : ∀ entry ∈ indices.drop last, i < entry)
    (h : halve indices i first last hlast = .error place) :
    place ≤ indices.length ∧ (∀ entry ∈ indices.take place, entry < i) ∧
      ∀ entry ∈ indices.drop place, i < entry := by
  fun_induction halve indices i first last hlast with
  | case1 => cases h
  | case2 first last hlast hlt middle hmiddle hne hless ih =>
    refine ih (by omega) ?_ hbehind h
    -- Everything up to the middle is no larger than the entry there.
    intro entry hentry
    obtain ⟨k, hk, rfl⟩ := List.mem_take_iff_getElem.1 hentry
    have hupTo : indices[k] ≤ indices[middle] := by
      rcases Nat.lt_or_eq_of_le (show k ≤ middle by omega) with hkm | rfl
      · exact List.pairwise_iff_getElem.1 hsorted k middle (by omega) hmiddle hkm
      · exact Nat.le_refl _
    omega
  | case3 first last hlast hlt middle hmiddle hne hless ih =>
    refine ih (by omega) hfront ?_ h
    intro entry hentry
    obtain ⟨k, hk, rfl⟩ := List.mem_drop_iff_getElem.1 hentry
    have hfrom : indices[middle] ≤ indices[middle + k] := by
      cases k with
      | zero => exact Nat.le_refl _
      | succ k =>
        exact List.pairwise_iff_getElem.1 hsorted middle (middle + (k + 1)) hmiddle (by omega)
          (by omega)
    omega
  | case4 first last hlast hge =>
    have hsame : first = last := by omega
    rw [← Except.error.inj h]
    exact ⟨hsame ▸ hlast, hfront, hsame ▸ hbehind⟩

end Halving

theorem insertIdx_length (front behind : List Nat) (i : Nat) :
    (front ++ behind).insertIdx front.length i = front ++ i :: behind := by
  induction front with
  | nil => rfl
  | cons x xs ih => simp [ih]

theorem searchesSorted_halving : SearchesSorted halving where
  found _ h := getElem?_of_halve h
  missing {indices i place} hsorted h := by
    obtain ⟨hplace, hfront, hbehind⟩ := cut_of_halve hsorted (Nat.zero_le _) (by simp) (by simp) h
    have hsplit := List.take_append_drop place indices
    have hlength : (indices.take place).length = place := List.length_take_of_le hplace
    refine ⟨?_, hplace, ?_⟩
    · intro hmem
      rw [← hsplit, List.mem_append] at hmem
      rcases hmem with hmem | hmem
      · exact Nat.lt_irrefl i (hfront i hmem)
      · exact Nat.lt_irrefl i (hbehind i hmem)
    · have hinsert := insertIdx_length (indices.take place) (indices.drop place) i
      rw [hsplit, hlength] at hinsert
      rw [← hsplit] at hsorted
      obtain ⟨hleft, hright, hacross⟩ := List.pairwise_append.1 hsorted
      rw [hinsert]
      refine List.pairwise_append.2 ⟨hleft, List.pairwise_cons.2 ⟨?_, hright⟩, ?_⟩
      · intro entry hentry
        exact Nat.le_of_lt (hbehind entry hentry)
      · intro entry hentry other hother
        rcases List.mem_cons.1 hother with rfl | hother
        · exact Nat.le_of_lt (hfront entry hentry)
        · exact hacross entry hentry other hother

/-! ## Sets that are searched -/

namespace RemovalSet

variable {search : List Nat → Nat → Except Nat Nat} {set : RemovalSet} {held : Finset Nat}

/-- Insert an index, unless it is found, where the search says that it belongs. -/
def insertBy (search : List Nat → Nat → Except Nat Nat) (set : RemovalSet) (i : Nat) : RemovalSet :=
  match search set.indices i with
  | .ok _ => set
  | .error place => ⟨set.indices.insertIdx place i⟩

def containsBy (search : List Nat → Nat → Except Nat Nat) (set : RemovalSet) (i : Nat) : Bool :=
  (search set.indices i).isOk

/-- The sets that inserting and rebasing make out of the empty one, and the indices that each of
them stands for. -/
inductive Made (search : List Nat → Nat → Except Nat Nat) : RemovalSet → Finset Nat → Prop where
  | empty : Made search empty ∅
  | insertBy {set : RemovalSet} {held : Finset Nat} (i : Nat) :
      Made search set held → Made search (set.insertBy search i) (Insert.insert i held)
  | rebased {set : RemovalSet} {held left : Finset Nat} (base : Nat) :
      Made search set held → (∀ j, j ∈ left ↔ j + base ∈ held) →
      Made search (set.rebased base) left

/-- A set that is kept in order is given by what is in it. -/
theorem eq_of_mem_iff {first second : RemovalSet} (hfirst : first.indices.Pairwise (· < ·))
    (hsecond : second.indices.Pairwise (· < ·))
    (h : ∀ i, i ∈ first.indices ↔ i ∈ second.indices) : first = second :=
  congrArg RemovalSet.mk (hfirst.eq_of_mem_iff hsecond h)

theorem sorted_rebased (h : set.indices.Pairwise (· < ·)) (base : Nat) :
    (set.rebased base).indices.Pairwise (· < ·) := by
  refine h.filterMap _ ?_
  intro first second hlt j hj k hk
  split at hj <;> cases hj
  split at hk <;> cases hk
  omega

theorem rebased_rebased (set : RemovalSet) (first second : Nat) :
    (set.rebased first).rebased second = set.rebased (first + second) := by
  simp only [rebased, List.filterMap_filterMap]
  congr 2
  funext index
  by_cases hfirst : first ≤ index
  · rw [if_pos hfirst, Option.bind_some]
    by_cases hboth : first + second ≤ index
    · rw [if_pos hboth, if_pos (by omega), Nat.sub_sub]
    · rw [if_neg hboth, if_neg (by omega)]
  · rw [if_neg hfirst, if_neg (by omega), Option.bind_none]

end RemovalSet

namespace SearchesSorted

variable {search : List Nat → Nat → Except Nat Nat} {set : RemovalSet}

/-- In a set that is kept in order the search finds what is there. -/
theorem containsBy_eq (h : SearchesSorted search) (hsorted : set.indices.Pairwise (· < ·)) (i : Nat) :
    set.containsBy search i = set.contains i := by
  have hle : set.indices.Pairwise (· ≤ ·) := hsorted.imp Nat.le_of_lt
  rw [RemovalSet.containsBy, Bool.eq_iff_iff, RemovalSet.contains_eq_true]
  cases hsearch : search set.indices i with
  | ok place => simpa [Except.isOk, Except.toBool] using List.mem_of_getElem? (h.found hle hsearch)
  | error place => simpa [Except.isOk, Except.toBool] using (h.missing hle hsearch).1

/-- In a set that is kept in order the search says where an index belongs. -/
theorem insertBy_eq (h : SearchesSorted search) (hsorted : set.indices.Pairwise (· < ·)) (i : Nat) :
    set.insertBy search i = set.insert i := by
  have hle : set.indices.Pairwise (· ≤ ·) := hsorted.imp Nat.le_of_lt
  have hinsert : (set.insert i).indices.Pairwise (· < ·) := RemovalSet.sorted_insertSorted hsorted
  have hmem (j : Nat) : j ∈ (set.insert i).indices ↔ j = i ∨ j ∈ set.indices :=
    RemovalSet.mem_insertSorted
  rw [RemovalSet.insertBy]
  cases hsearch : search set.indices i with
  | ok place =>
    have hthere : i ∈ set.indices := List.mem_of_getElem? (h.found hle hsearch)
    refine RemovalSet.eq_of_mem_iff hsorted hinsert ?_
    intro j
    rw [hmem]
    constructor
    · exact Or.inr
    · rintro (rfl | hj)
      · exact hthere
      · exact hj
  | error place =>
    obtain ⟨hnew, hplace, hroom⟩ := h.missing hle hsearch
    -- The search only promises an order that allows repetitions; that the index is new excludes them.
    have hnodup : (set.indices.insertIdx place i).Nodup := by
      rw [(List.perm_insertIdx i set.indices hplace).nodup_iff, List.nodup_cons]
      exact ⟨hnew, hsorted.imp Nat.ne_of_lt⟩
    have hstrict : (set.indices.insertIdx place i).Pairwise (· < ·) :=
      hroom.imp₂ (fun _ _ => Nat.lt_of_le_of_ne) hnodup
    refine RemovalSet.eq_of_mem_iff hstrict hinsert ?_
    intro j
    rw [hmem, List.mem_insertIdx hplace]

theorem foldl_insertBy (h : SearchesSorted search) (hsorted : set.indices.Pairwise (· < ·))
    (inserted : List Nat) :
    inserted.foldl (RemovalSet.insertBy search) set = inserted.foldl RemovalSet.insert set := by
  induction inserted generalizing set with
  | nil => rfl
  | cons i rest ih =>
    rw [List.foldl_cons, List.foldl_cons, h.insertBy_eq hsorted]
    exact ih (RemovalSet.sorted_insertSorted hsorted)

end SearchesSorted

namespace RemovalSet

variable {search : List Nat → Nat → Except Nat Nat} {set : RemovalSet} {held : Finset Nat}

/-- **The invariant.** Inserting and rebasing keep the order. By induction on how the set was made:
as the set was in order until now, the search tells where the next index belongs. -/
theorem Made.ordered (hsearch : SearchesSorted search) (h : Made search set held) :
    set.indices.Pairwise (· < ·) ∧ ∀ i, i ∈ set.indices ↔ i ∈ held := by
  induction h with
  | empty => exact ⟨.nil, by simp [RemovalSet.empty]⟩
  | @insertBy set held i _ ih =>
    obtain ⟨hsorted, hmem⟩ := ih
    rw [hsearch.insertBy_eq hsorted]
    refine ⟨sorted_insertSorted hsorted, ?_⟩
    intro j
    rw [insert, mem_insertSorted, hmem, Finset.mem_insert]
  | rebased base _ hleft ih =>
    obtain ⟨hsorted, hmem⟩ := ih
    refine ⟨sorted_rebased hsorted base, ?_⟩
    intro j
    rw [mem_rebased, hmem, hleft]

/-- Each index that a set stands for is counted once. -/
theorem Made.size_eq (hsearch : SearchesSorted search) (h : Made search set held) :
    set.size = held.card := by
  obtain ⟨hsorted, hmem⟩ := h.ordered hsearch
  have hheld : set.indices.toFinset = held := by
    ext i
    rw [List.mem_toFinset, hmem]
  rw [size, ← hheld, List.toFinset_card_of_nodup (hsorted.imp Nat.ne_of_lt)]

theorem made_foldl (search : List Nat → Nat → Except Nat Nat) (inserted : List Nat)
    (h : Made search set held) :
    Made search (inserted.foldl (insertBy search) set) (held ∪ inserted.toFinset) := by
  induction inserted generalizing set held with
  | nil => simpa using h
  | cons i rest ih =>
    have hrest := ih (h.insertBy i)
    rw [List.foldl_cons]
    have hheld : Insert.insert i held ∪ rest.toFinset = held ∪ (i :: rest).toFinset := by
      rw [List.toFinset_cons, Finset.insert_union, Finset.union_insert]
    rwa [hheld] at hrest

/-- **Sets of indices.** Collecting indices makes the same set whichever search is used, and it
stands for what was collected. Every set that inserting and rebasing make, in any order, holds its
indices in increasing order, finds exactly those that it stands for, and counts each of them once;
so does what is left of it when it is rebased, which holds an index if the set holds the one that is
larger by the base. Rebasing twice is rebasing once. -/
theorem collections (hsearch : SearchesSorted search) :
    (∀ inserted : List Nat, inserted.foldl (insertBy search) empty = ofList inserted ∧
      Made search (ofList inserted) inserted.toFinset) ∧
    ∀ set held, Made search set held →
      set.indices.Pairwise (· < ·) ∧
      (∀ i, set.containsBy search i = true ↔ i ∈ held) ∧
      set.size = held.card ∧
      (∀ i, set.insertBy search i = set.insert i ∧ set.containsBy search i = set.contains i) ∧
      ∀ base, (set.rebased base).indices.Pairwise (· < ·) ∧
        (∀ j, (set.rebased base).containsBy search j = set.containsBy search (j + base)) ∧
        ∀ further, (set.rebased base).rebased further = set.rebased (base + further) := by
  constructor
  · intro inserted
    have hcollected : inserted.foldl (insertBy search) empty = ofList inserted :=
      hsearch.foldl_insertBy .nil inserted
    have hmade := made_foldl search inserted .empty
    rw [hcollected, Finset.empty_union] at hmade
    exact ⟨hcollected, hmade⟩
  · intro set held hmade
    obtain ⟨hsorted, hmem⟩ := hmade.ordered hsearch
    have hcontains (i : Nat) : set.containsBy search i = set.contains i :=
      hsearch.containsBy_eq hsorted i
    refine ⟨hsorted, ?_, hmade.size_eq hsearch, ?_, ?_⟩
    · intro i
      rw [hcontains, contains_eq_true, hmem]
    · intro i
      exact ⟨hsearch.insertBy_eq hsorted i, hcontains i⟩
    · intro base
      have hrebased := sorted_rebased hsorted base
      refine ⟨hrebased, ?_, fun further => rebased_rebased set base further⟩
      intro j
      rw [hsearch.containsBy_eq hrebased, hcontains, contains_rebased]

/-- Four indices in no order, one of them twice; what is left of them when they are rebased, and one
more in the middle of that. -/
theorem collections_shuffled :
    SearchesSorted halving ∧
    [5, 1, 3, 1].foldl (insertBy halving) empty = ⟨[1, 3, 5]⟩ ∧
    Made halving ⟨[1, 3]⟩ {1, 3} ∧
    (∀ i, containsBy halving ⟨[1, 3]⟩ i = true ↔ i ∈ ({1, 3} : Finset Nat)) ∧
    insertBy halving ⟨[1, 3]⟩ 2 = ⟨[1, 2, 3]⟩ := by
  obtain ⟨hcollect, hsets⟩ := collections searchesSorted_halving
  obtain ⟨hcollected, hmade⟩ := hcollect [5, 1, 3, 1]
  have hrebased : Made halving ⟨[1, 3]⟩ {1, 3} := hmade.rebased 2 (by
    intro j
    simp only [List.mem_toFinset, Finset.mem_insert, Finset.mem_singleton, List.mem_cons,
      List.not_mem_nil, or_false]
    omega)
  obtain ⟨-, hfinds, -, hruns, -⟩ := hsets _ _ hrebased
  exact ⟨searchesSorted_halving, hcollected.trans (by decide), hrebased, hfinds,
    (hruns 2).1.trans (by decide)⟩

end RemovalSet

end BootTree
