import BootTree.Proofs.Bounds.Queries

/-!
# BootTree.Proofs.Bounds.Entries

One entry of a list of references, with every access checked. The position behind an entry is a
64-bit word. Where a property of the referenced node says how many arguments there are, their number
is a 32-bit word and no position leaves its word. Where the number is given, it may be any word: then
the sum of a position and the number faults before it is compared with the length of the list.

* `Checked.entryAt`, `Checked.slotEntry`: an entry, by its position in the list.
* `Tree.Overruns`: the lists and numbers for which the sum does not fit.
* `Tree.slotEntry_eq_none_iff`: there is no entry exactly for these.
* `Tree.slotEntry_eq_some`: in all other cases it is the entry of the whole list.
-/

namespace BootTree

open Blob

variable {tree : Tree} {node : NodeRef} {name : Bytes} {rule : ArgumentCount}

namespace Checked

/-! ## References -/

def argumentCount (tree : Tree) (node : NodeRef) : ArgumentCount → Checked Nat
  | .fixed count => pure count
  | .declaredBy property =>
    match cell tree node property with
    | fault => fault
    | of (.ok (some count)) => pure count.toNat
    | of (.ok none) | of (.error (.badValue _)) => fail .badCellCount
    | of (.error e) => fail e

theorem argumentCount_eq : argumentCount tree node rule = of (tree.argumentCount node rule) := by
  cases rule with
  | fixed count => rfl
  | declaredBy property =>
    rw [argumentCount, Tree.argumentCount, cell_eq]
    cases tree.cell node property with
    | error e => cases e <;> rfl
    | ok found => cases found <;> rfl

def reference (tree : Tree) (rule : ArgumentCount) (raw : UInt32) : Checked (NodeRef × Nat) := do
  let phandle ← of (Phandle.ofRaw raw)
  match ← findPhandle tree phandle with
  | none => fail (.badPhandle raw)
  | some node => return (node, ← argumentCount tree node rule)

theorem reference_eq (hsize : tree.structBlock.length < 2 ^ 32) {raw : UInt32} :
    reference tree rule raw = of (tree.reference rule raw) := by
  unfold reference Tree.reference
  cases Phandle.ofRaw raw with
  | error e => rfl
  | ok phandle =>
    rw [of_ok_bind, findPhandle_eq hsize]
    change _ = of (tree.findPhandle phandle >>= _)
    cases tree.findPhandle phandle with
    | error e => rfl
    | ok found =>
      cases found with
      | none => rfl
      | some node =>
        rw [of_ok_bind]
        dsimp only
        rw [argumentCount_eq]
        change _ = of (tree.argumentCount node rule >>= _)
        cases tree.argumentCount node rule <;> rfl

/-! ## Entries -/

/-- The entry `index` entries behind the one at `position`. -/
def entryAt (tree : Tree) (rule : ArgumentCount) (cells : List UInt32) (position index : Nat) :
    Checked (NodeRef × List UInt32) :=
  if _h : position < cells.length then do
    let raw ← access cells[position]?
    fits (position + 1)
    if raw = 0 then
      if index = 0 then fail .notFound else entryAt tree rule cells (position + 1) (index - 1)
    else
      let (node, count) ← reference tree rule raw
      fits (position + 1 + count)
      if cells.length < position + 1 + count then fail (.badValue (cells.length * 4))
      else if index = 0 then
        let args ← access (slice? cells (position + 1) (position + 1 + count))
        return (node, args)
      else entryAt tree rule cells (position + 1 + count) (index - 1)
  else fail .notFound
termination_by cells.length - position

def slotEntry (tree : Tree) (node : NodeRef) (property : Bytes) (rule : ArgumentCount)
    (index : Nat) : Checked (NodeRef × List UInt32) := do
  match ← cells tree node property with
  | none => fail .notFound
  | some cells => entryAt tree rule cells 0 index

theorem entryAt_eq (hsize : tree.structBlock.length < 2 ^ 32) {cells : List UInt32}
    (hcells : cells.length < 2 ^ 64) (position index : Nat) :
    entryAt tree rule cells position index =
      ofOption (tree.entryFrom rule cells.length (cells.drop position) index) := by
  induction hk : cells.length - position using Nat.strong_induction_on generalizing position index
  rename_i k ih
  rw [entryAt]
  split
  · rename_i hin
    have hdrop := List.drop_eq_getElem_cons hin
    have hbehind : cells.length - (cells.drop (position + 1)).length = position + 1 := by
      rw [List.length_drop]
      omega
    rw [access_bind (List.getElem?_eq_getElem hin), fits_bind (by omega), hdrop, Tree.entryFrom]
    by_cases hraw : cells[position] = 0
    · rw [if_pos hraw, if_pos hraw]
      split
      · rfl
      · exact ih _ (by omega) _ _ rfl
    · rw [if_neg hraw, if_neg hraw, reference_eq hsize]
      cases tree.reference rule cells[position] with
      | error e => rfl
      | ok found =>
        obtain ⟨node, count⟩ := found
        rw [of_ok_bind]
        dsimp only
        rw [hbehind]
        by_cases hfits : 0x10000000000000000 ≤ position + 1 + count
        · rw [if_pos hfits, fits_bind_of_le (by omega)]
          rfl
        · rw [if_neg hfits, fits_bind (by omega)]
          rw [List.length_drop]
          by_cases hlong : cells.length < position + 1 + count
          · have hshort : cells.length - (position + 1) < count := by omega
            rw [if_pos hlong, if_pos hshort, Nat.mul_comm]
            rfl
          · have henough : ¬ cells.length - (position + 1) < count := by omega
            have hslice : position + 1 ≤ position + 1 + count ∧
                position + 1 + count ≤ cells.length := by omega
            rw [if_neg hlong, if_neg henough, List.drop_drop]
            split
            · rw [access_bind (slice?_of_le hslice), Nat.add_sub_cancel_left]
              rfl
            · exact ih _ (by omega) _ _ rfl
  · rename_i hout
    rw [List.drop_eq_nil_of_le (by omega), Tree.entryFrom]
    rfl

end Checked

/-! ## Which positions fit -/

namespace SlotList

theorem entry_prepend (slot : Slot) (list : SlotList) (index : Nat) :
    (list.prepend slot).entry index =
      if index = 0 then
        match slot with
        | .empty => .error .notFound
        | .reference node args => .ok (node, args)
      else list.entry (index - 1) := by
  cases index with
  | zero => cases slot <;> rfl
  | succ index => rfl

end SlotList

namespace Tree

/-- From `position` on, a list has no entries but empty ones in front of a reference whose arguments
would end behind the last position that is a 64-bit word. -/
inductive Overruns (tree : Tree) (rule : ArgumentCount) :
    (position : Nat) → List UInt32 → (index : Nat) → Prop
  | reference {position index : Nat} {raw : UInt32} {rest : List UInt32} {node : NodeRef}
      {count : Nat} : raw ≠ 0 → tree.reference rule raw = .ok (node, count) →
      2 ^ 64 ≤ position + 1 + count → tree.Overruns rule position (raw :: rest) index
  | empty {position index : Nat} {rest : List UInt32} :
      tree.Overruns rule (position + 1) rest index →
      tree.Overruns rule position (0 :: rest) (index + 1)

theorem argumentCount_of_reference {raw : UInt32} {count : Nat}
    (h : tree.reference rule raw = .ok (node, count)) : tree.argumentCount node rule = .ok count := by
  unfold reference at h
  obtain ⟨phandle, -, h⟩ := exists_of_bind_eq_ok h
  obtain ⟨found, -, h⟩ := exists_of_bind_eq_ok h
  cases found with
  | none => cases h
  | some target =>
    obtain ⟨declared, hcount, h⟩ := exists_of_bind_eq_ok h
    cases h
    exact hcount

/-- If the arguments of one entry fit into a list, those of all entries end at positions that do. -/
theorem fits_of_reference {raw raw' : UInt32} {node' : NodeRef} {total count count' : Nat}
    (h : tree.reference rule raw = .ok (node, count))
    (h' : tree.reference rule raw' = .ok (node', count')) (hcount : count < total)
    (htotal : total < 2 ^ 32) : total + count' < 2 ^ 64 := by
  have hdeclared := argumentCount_of_reference h
  have hdeclared' := argumentCount_of_reference h'
  cases rule with
  | fixed number =>
    cases hdeclared
    cases hdeclared'
    omega
  | declaredBy property =>
    rw [argumentCount] at hdeclared'
    split at hdeclared'
    · rename_i cell hcell
      cases hdeclared'
      have := cell.toNat_lt
      omega
    · cases hdeclared'
    · cases hdeclared'
    · cases hdeclared'

/-- Where all positions fit, an entry is that of the whole list. -/
theorem entryFrom_of_fits {total : Nat} {cells : List UInt32} (htotal : cells.length ≤ total)
    (hfits : ∀ raw node count, tree.reference rule raw = .ok (node, count) →
      total + count < 2 ^ 64) (index : Nat) :
    tree.entryFrom rule total cells index =
      some ((tree.slotsFrom rule total cells).entry index) := by
  fun_induction slotsFrom tree rule total cells generalizing index with
  | case1 =>
    rw [entryFrom]
    rfl
  | case2 rest ih =>
    rw [List.length_cons] at htotal
    rw [entryFrom, if_pos rfl, SlotList.entry_prepend]
    split
    · rfl
    · exact ih (by omega) _
  | case3 raw rest hraw e href =>
    rw [entryFrom, if_neg hraw, href]
    rfl
  | case4 raw rest hraw target count href hshort =>
    have := hfits _ _ _ href
    rw [entryFrom, if_neg hraw, href]
    dsimp only
    rw [if_neg (by omega), if_pos hshort]
    rfl
  | case5 raw rest hraw target count href henough ih =>
    have := hfits _ _ _ href
    rw [List.length_cons] at htotal
    rw [entryFrom, if_neg hraw, href]
    dsimp only
    rw [if_neg (by omega), if_neg henough, SlotList.entry_prepend]
    split
    · rfl
    · exact ih (by rw [List.length_drop]; omega) _

theorem entryFrom_of_overruns {position index total : Nat} {cells : List UInt32}
    (h : tree.Overruns rule position cells index) (htotal : total = position + cells.length) :
    tree.entryFrom rule total cells index = none := by
  induction h with
  | @reference position index raw rest node count hraw href hover =>
    rw [List.length_cons] at htotal
    rw [entryFrom, if_neg hraw, href]
    dsimp only
    rw [if_pos (by omega)]
  | empty _ ih =>
    rw [List.length_cons] at htotal
    rw [entryFrom, if_pos rfl, if_neg (Nat.succ_ne_zero _)]
    exact ih (by omega)

theorem entryFrom_of_not_overruns {position index total : Nat} {cells : List UInt32}
    (h : ¬ tree.Overruns rule position cells index) (htotal : total = position + cells.length)
    (hsize : total < 2 ^ 32) : tree.entryFrom rule total cells index =
      some ((tree.slotsFrom rule total cells).entry index) := by
  induction cells generalizing position index with
  | nil =>
    rw [entryFrom, slotsFrom]
    rfl
  | cons raw rest ih =>
    rw [List.length_cons] at htotal
    rw [entryFrom, slotsFrom]
    by_cases hraw : raw = 0
    · subst hraw
      rw [if_pos rfl, if_pos rfl, SlotList.entry_prepend]
      split
      · rfl
      · rename_i hindex
        obtain ⟨index, rfl⟩ := Nat.exists_eq_succ_of_ne_zero hindex
        exact ih (fun hover => h (.empty hover)) (by omega)
    · rw [if_neg hraw, if_neg hraw]
      cases href : tree.reference rule raw with
      | error e => rfl
      | ok found =>
        obtain ⟨target, count⟩ := found
        have hfits : position + 1 + count < 2 ^ 64 :=
          Nat.lt_of_not_le fun hover => h (.reference hraw href hover)
        dsimp only
        rw [if_neg (by omega)]
        split
        · rfl
        · -- a number that fits behind one entry fits behind all of them
          rw [SlotList.entry_prepend]
          split
          · rfl
          · refine entryFrom_of_fits (by rw [List.length_drop]; omega) ?_ _
            intro raw' node' count' href'
            exact fits_of_reference href href' (by omega) hsize

theorem length_le_of_cells {cells : List UInt32} (h : tree.cells node name = .ok (some cells)) :
    cells.length ≤ tree.structBlock.length := by
  unfold Tree.cells valueAs Tree.value at h
  cases hfound : tree.property? node name with
  | error e =>
    rw [hfound] at h
    cases h
  | ok found =>
    rw [hfound] at h
    cases found with
    | none => cases h
    | some found =>
      have hin := le_of_property? hfound
      have hvalue := Bytes.le_alignUp found.value.length
      rw [found.size_token] at hin
      by_cases haligned : found.value.length % 4 = 0
      · simp only [Except.map, Option.map_some, Cells.decode, if_pos haligned] at h
        cases h
        rw [Cells.length_whole]
        omega
      · simp only [Except.map, Option.map_some, Cells.decode, if_neg haligned] at h
        cases h

/-- There is no entry exactly if the position behind an entry on the way to it does not fit. -/
theorem slotEntry_eq_none_iff {index : Nat} (hsize : tree.structBlock.length < 2 ^ 32) :
    tree.slotEntry node name rule index = none ↔
      ∃ cells, tree.cells node name = .ok (some cells) ∧ tree.Overruns rule 0 cells index := by
  unfold slotEntry
  cases hcells : tree.cells node name with
  | error e => simp
  | ok found =>
    cases found with
    | none => simp
    | some cells =>
      have hlength := length_le_of_cells hcells
      simp only [Except.ok.injEq, Option.some.injEq, exists_eq_left']
      constructor
      · intro hnone
        by_contra hover
        rw [entryFrom_of_not_overruns hover (Nat.zero_add _).symm (by omega)] at hnone
        cases hnone
      · intro hover
        exact entryFrom_of_overruns hover (Nat.zero_add _).symm

/-- In all other cases, it is the entry of the whole list. -/
theorem slotEntry_eq_some {index : Nat} (hsize : tree.structBlock.length < 2 ^ 32)
    (h : tree.slotEntry node name rule index ≠ none) :
    tree.slotEntry node name rule index =
      some ((tree.readSlots node name rule).bind (·.entry index)) := by
  have hfits := mt (slotEntry_eq_none_iff hsize).2 h
  unfold slotEntry readSlots
  cases hcells : tree.cells node name with
  | error e => rfl
  | ok found =>
    cases found with
    | none => rfl
    | some cells =>
      have hlength := length_le_of_cells hcells
      have hover : ¬ tree.Overruns rule 0 cells index := fun hover => hfits ⟨cells, hcells, hover⟩
      exact entryFrom_of_not_overruns hover (Nat.zero_add _).symm (by omega)

end Tree

theorem Checked.slotEntry_eq {index : Nat} (hsize : tree.structBlock.length < 2 ^ 32) :
    Checked.slotEntry tree node name rule index =
      Checked.ofOption (tree.slotEntry node name rule index) := by
  unfold Checked.slotEntry Tree.slotEntry
  rw [Checked.cells_eq]
  cases hcells : tree.cells node name with
  | error e => rfl
  | ok found =>
    cases found with
    | none => rfl
    | some cells =>
      have hlength := Tree.length_le_of_cells hcells
      exact Checked.entryAt_eq hsize (by omega) 0 index

end BootTree
