import BootTree.Tree.Path

/-!
# BootTree.Tree.Phandle

References from one node to another. A node carries a phandle; lists of other nodes name it by that
number and add as many argument cells as the node asks for.

* `Phandle` — a reference; zero and all ones never name a node.
* `Tree.findPhandle` — the first node in document order that carries a phandle.
* `Tree.readSlots` — a whole list of references: its valid entries in order, and the error of the
  first malformed one, behind which nothing can be made out.
* `SlotList.entry` — the entry at an index of such a list.
* `Tree.slotEntry` — one entry, for which the list is only read up to it. With a fixed number of
  argument cells this can fault: positions in a list are 64-bit words.
-/

namespace BootTree

structure Phandle where
  raw : UInt32
  ne_zero : raw ≠ 0
  ne_ones : raw ≠ 0xffffffff
  deriving DecidableEq

namespace Phandle

def ofRaw? (raw : UInt32) : Option Phandle :=
  if h : raw ≠ 0 ∧ raw ≠ 0xffffffff then some ⟨raw, h.1, h.2⟩ else none

theorem ofRaw?_eq_some_iff {raw : UInt32} {p : Phandle} : ofRaw? raw = some p ↔ p.raw = raw := by
  unfold ofRaw?
  split
  · rename_i h
    constructor
    · intro hp; cases hp; rfl
    · rintro rfl; rfl
  · rename_i h
    constructor
    · intro hp; cases hp
    · rintro rfl; exact absurd ⟨p.ne_zero, p.ne_ones⟩ h

def ofRaw (raw : UInt32) : Except TreeError Phandle :=
  match ofRaw? raw with
  | some p => .ok p
  | none => .error (.badPhandle raw)

end Phandle

inductive ArgumentCount where
  | fixed (count : Nat)
  /-- As many as a property of the referenced node says. -/
  | declaredBy (property : Bytes)
  deriving DecidableEq, Repr

/-- One entry of a list of references. -/
inductive Slot where
  | empty
  | reference (node : NodeRef) (args : List UInt32)
  deriving DecidableEq, Repr

/-- The valid entries at the front of a list of references and the error of the entry behind them,
if the list does not end there. -/
structure SlotList where
  slots : List Slot
  failure : Option TreeError

namespace SlotList

/-- The entry at an index. Empty entries and those behind the end do not exist; behind a malformed
entry every index has that entry's error. -/
def entry (list : SlotList) (index : Nat) : Except TreeError (NodeRef × List UInt32) :=
  match list.slots[index]?, list.failure with
  | some (.reference node args), _ => .ok (node, args)
  | some .empty, _ => .error .notFound
  | none, some e => .error e
  | none, none => .error .notFound

def prepend (slot : Slot) (list : SlotList) : SlotList := { list with slots := slot :: list.slots }

end SlotList

namespace Tree

/-- The phandle a node carries, under either of the two names it may have. -/
def phandleOf (tree : Tree) (node : NodeRef) : Except TreeError (Option Phandle) :=
  match tree.cell node "phandle" with
  | .error e => .error e
  | .ok (some raw) => .ok (Phandle.ofRaw? raw)
  | .ok none => (tree.cell node "linux,phandle").map (·.bind Phandle.ofRaw?)

def findPhandle (tree : Tree) (phandle : Phandle) : Except TreeError (Option NodeRef) :=
  (tree.walkAll.find? fun node _ =>
    (tree.phandleOf node).map fun found => decide (found = some phandle)).map (·.map Prod.fst)

/-- The node that a raw number refers to; a number that is no phandle refers to none. -/
def findRaw (tree : Tree) (raw : UInt32) : Except TreeError (Option NodeRef) :=
  match Phandle.ofRaw? raw with
  | none => .ok none
  | some phandle => tree.findPhandle phandle

def argumentCount (tree : Tree) (node : NodeRef) : ArgumentCount → Except TreeError Nat
  | .fixed count => .ok count
  | .declaredBy property =>
    match tree.cell node property with
    | .ok (some count) => .ok count.toNat
    | .ok none | .error (.badValue _) => .error .badCellCount
    | .error e => .error e

def reference (tree : Tree) (rule : ArgumentCount) (raw : UInt32) :
    Except TreeError (NodeRef × Nat) := do
  let phandle ← Phandle.ofRaw raw
  match ← tree.findPhandle phandle with
  | none => throw (.badPhandle raw)
  | some node => return (node, ← tree.argumentCount node rule)

/-- The entries of a list of references of `total` cells, from the given cells to its end. -/
def slotsFrom (tree : Tree) (rule : ArgumentCount) (total : Nat) : List UInt32 → SlotList
  | [] => ⟨[], none⟩
  | raw :: rest =>
    if raw = 0 then (tree.slotsFrom rule total rest).prepend .empty
    else
      match tree.reference rule raw with
      | .error e => ⟨[], some e⟩
      | .ok (node, count) =>
        if rest.length < count then ⟨[], some (.badValue (4 * total))⟩
        else (tree.slotsFrom rule total (rest.drop count)).prepend (.reference node (rest.take count))
termination_by cells => cells.length
decreasing_by all_goals simp only [List.length_cons, List.length_drop]; omega

def readSlots (tree : Tree) (node : NodeRef) (property : Bytes) (rule : ArgumentCount) :
    Except TreeError SlotList :=
  match tree.cells node property with
  | .error e => .error e
  | .ok none => .error .notFound
  | .ok (some cells) => .ok (tree.slotsFrom rule cells.length cells)

/-- The entry at an index, counted from the given cells of a list of `total` cells. There is none if
the position behind an entry on the way does not fit a 64-bit word. -/
def entryFrom (tree : Tree) (rule : ArgumentCount) (total : Nat) :
    List UInt32 → Nat → Option (Except TreeError (NodeRef × List UInt32))
  | [], _ => some (.error .notFound)
  | raw :: rest, index =>
    if raw = 0 then
      if index = 0 then some (.error .notFound) else tree.entryFrom rule total rest (index - 1)
    else
      match tree.reference rule raw with
      | .error e => some (.error e)
      | .ok (node, count) =>
        if 0x10000000000000000 ≤ total - rest.length + count then none
        else if rest.length < count then some (.error (.badValue (4 * total)))
        else if index = 0 then some (.ok (node, rest.take count))
        else tree.entryFrom rule total (rest.drop count) (index - 1)
termination_by cells => cells.length
decreasing_by all_goals simp only [List.length_cons, List.length_drop]; omega

def slotEntry (tree : Tree) (node : NodeRef) (property : Bytes) (rule : ArgumentCount)
    (index : Nat) : Option (Except TreeError (NodeRef × List UInt32)) :=
  match tree.cells node property with
  | .error e => some (.error e)
  | .ok none => some (.error .notFound)
  | .ok (some cells) => tree.entryFrom rule cells.length cells index

end Tree

end BootTree
