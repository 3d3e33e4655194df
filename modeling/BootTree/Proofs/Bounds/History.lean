import BootTree.Proofs.Bounds.Faultless
import BootTree.Proofs.Bounds.Entries

/-!
# BootTree.Proofs.Bounds.History

Every access of the queries and edits of an image is in bounds, whatever blob the image was read
from, whatever was edited before, and whatever the arguments are, node positions included: they may
be left over from an earlier state or belong to another tree. What is wrong with them comes out as an
error or as an answer that there is nothing.

There is one exception. The number of argument cells of an entry, if it is given and not declared by
a node, is added to a position before it is compared with the length of the list.

* `Query`: a query as data, to be run on a tree or, with every access checked, on an image.
* `Image.History`: the images that edits lead to.
* `Image.History.inBounds`: the checked queries and edits are the queries and edits.
-/

namespace BootTree

open Blob

/-! ## Queries as data -/

inductive Query : Type → Type where
  | nodeName (node : NodeRef) : Query Bytes
  | next (node : NodeRef) (depth : Int) : Query (Option (NodeRef × Int))
  | child (parent : NodeRef) (wanted : Bytes) : Query (Option NodeRef)
  | resolve (path : Bytes) : Query (Option NodeRef)
  | value (node : NodeRef) (name : Bytes) : Query (Option Bytes)
  | cell (node : NodeRef) (name : Bytes) : Query (Option UInt32)
  | cells (node : NodeRef) (name : Bytes) : Query (Option (List UInt32))
  | text (node : NodeRef) (name : Bytes) : Query (Option Bytes)
  | stringCount (node : NodeRef) (name : Bytes) : Query (Option Nat)
  | isCompatible (node : NodeRef) (compatible : Bytes) : Query Bool
  | isEnabled (node : NodeRef) : Query Bool
  | findCompatible (start : Option NodeRef) (compatible : Bytes) : Query (Option NodeRef)
  | findPhandle (phandle : Phandle) : Query (Option NodeRef)
  | slotEntry (node : NodeRef) (property : Bytes) (rule : ArgumentCount) (index : Nat) :
    Query (NodeRef × List UInt32)

namespace Query

variable {α : Type}

def run (tree : Tree) : Query α → Option (Except TreeError α)
  | nodeName node => some (tree.nodeName node)
  | next node depth => some (tree.next node depth)
  | child parent wanted => some (tree.child? parent wanted)
  | resolve path => some (tree.resolve path)
  | value node name => some (tree.value node name)
  | cell node name => some (tree.cell node name)
  | cells node name => some (tree.cells node name)
  | text node name => some (tree.text node name)
  | stringCount node name => some (tree.stringCount node name)
  | isCompatible node compatible => some (.ok (tree.isCompatible node compatible))
  | isEnabled node => some (.ok (tree.isEnabled node))
  | findCompatible start compatible => some (tree.findCompatible start compatible)
  | findPhandle phandle => some (tree.findPhandle phandle)
  | slotEntry node property rule index => tree.slotEntry node property rule index

/-- The query with every access checked. -/
def check (tree : Tree) : Query α → Checked α
  | nodeName node => Checked.nodeName tree node
  | next node depth => do
    return (← Checked.scan tree node (some depth)).map fun (found, d) => (found, d.getD 0)
  | child parent wanted => Checked.child? tree parent wanted
  | resolve path => Checked.resolve tree path
  | value node name => Checked.value tree node name
  | cell node name => Checked.cell tree node name
  | cells node name => Checked.cells tree node name
  | text node name => Checked.text tree node name
  | stringCount node name => Checked.stringCount tree node name
  | isCompatible node compatible => Checked.isCompatible tree node compatible
  | isEnabled node => Checked.isEnabled tree node
  | findCompatible start compatible => Checked.findCompatible tree start compatible
  | findPhandle phandle => Checked.findPhandle tree phandle
  | slotEntry node property rule index => Checked.slotEntry tree node property rule index

def runChecked (query : Query α) : CheckedEdit α := CheckedEdit.ask fun tree => query.check tree

/-- A depth that a step down or up leaves a signed 32-bit word. -/
def HasDepth : Query α → Prop
  | next _ depth => -2 ^ 31 < depth ∧ depth < 2 ^ 31 - 1
  | _ => True

/-- An entry behind a number of argument cells that does not fit. -/
def Overruns (tree : Tree) : Query α → Prop
  | slotEntry node property rule index =>
    ∃ cells, tree.cells node property = .ok (some cells) ∧ tree.Overruns rule 0 cells index
  | _ => False

theorem check_next {tree : Tree} {node : NodeRef} {depth : Int}
    (h : -2 ^ 31 < depth ∧ depth < 2 ^ 31 - 1) :
    (next node depth).check tree = .of (tree.next node depth) := by
  have hcounts : Checked.Counts (tree.structBlock.length - node.offset) depth (some depth) :=
    ⟨rfl, h⟩
  rw [check, Checked.scan_eq hcounts]
  cases tree.next node depth with
  | error e => rfl
  | ok found => cases found <;> rfl

/-- A checked query is the query. -/
theorem check_eq {tree : Tree} (hsize : tree.structBlock.length < 2 ^ 32) (query : Query α)
    (h : query.HasDepth) : query.check tree = .ofOption (query.run tree) := by
  cases query with
  | nodeName node => exact Checked.nodeName_eq
  | next node depth => exact check_next h
  | child parent wanted => exact Checked.child?_eq hsize
  | resolve path => exact Checked.resolve_eq hsize
  | value node name => exact Checked.value_eq
  | cell node name => exact Checked.cell_eq
  | cells node name => exact Checked.cells_eq
  | text node name => exact Checked.text_eq
  | stringCount node name => exact Checked.stringCount_eq
  | isCompatible node compatible => exact Checked.isCompatible_eq
  | isEnabled node => exact Checked.isEnabled_eq
  | findCompatible start compatible => exact Checked.findCompatible_eq hsize
  | findPhandle phandle => exact Checked.findPhandle_eq hsize
  | slotEntry node property rule index => exact Checked.slotEntry_eq hsize

theorem runChecked_eq {image : Image} (hframed : image.Framed) (query : Query α)
    (h : query.HasDepth) : query.runChecked image =
      (query.run image.tree).map fun answer => Image.ask (fun _ => answer) image := by
  rw [runChecked, CheckedEdit.ask, if_pos hframed.hasBlocks,
    query.check_eq hframed.length_structBlock_lt h]
  cases query.run image.tree <;> rfl

theorem run_eq_none_iff {tree : Tree} (hsize : tree.structBlock.length < 2 ^ 32) (query : Query α) :
    query.run tree = none ↔ query.Overruns tree := by
  cases query with
  | slotEntry node property rule index => exact Tree.slotEntry_eq_none_iff hsize
  | _ =>
    refine ⟨?_, False.elim⟩
    rintro ⟨⟩

end Query

/-! ## Histories -/

/-- The images that edits lead to, as long as sizes are words. -/
inductive Image.History : Image → Prop where
  | empty {size : Nat} : size < 2 ^ 32 → (Image.empty size).History
  | read {blob : Bytes} {size : Nat} {image : Image} : Image.read blob size = .ok image →
      image.bytes.length < 2 ^ 32 → image.History
  | limit {image : Image} (limit : Nat) : image.History → (image.withMaxSize limit).History
  | edit {image : Image} (command : Command) : image.History →
      (afterwards (command.runInPlace image)).bytes.length < 2 ^ 32 →
      (afterwards (command.runInPlace image)).History

theorem Tree.Encodable.framed {tree : Tree} (h : tree.Encodable) : tree.image.Framed := by
  have hsize := h.size
  have hstructOffset : tree.image.header.structOffset.toNat = tree.structOffset := h.sized.structOffset
  have hstructSize : tree.image.header.structSize.toNat = tree.structBlock.length :=
    h.sized.structSize
  have hstringsOffset : tree.image.header.stringsOffset.toNat = tree.stringsOffset :=
    h.sized.stringsOffset
  have hstringsSize : tree.image.header.stringsSize.toNat = tree.strings.length :=
    h.sized.stringsSize
  have hlength : tree.image.bytes.length = tree.totalSize := tree.length_encode
  refine ⟨?_, ?_, ?_, ?_⟩
  · rw [hstructOffset, Tree.structOffset, Nat.mul_succ]
    omega
  · rw [hstructOffset, hstructSize, hstringsOffset]
    rfl
  · rw [hstringsOffset, hstringsSize, hlength, Tree.totalSize, Tree.usedSize]
    omega
  · rw [hlength]
    exact hsize

namespace Image.History

variable {image : Image}

/-- All of them have the frame. -/
theorem framed (h : image.History) : image.Framed := by
  induction h with
  | empty hsize =>
    obtain ⟨hencodable, himage⟩ := (Reached.empty hsize).encodable
    rw [himage]
    exact hencodable.framed
  | @read blob size image hread hsize =>
    rw [Image.read_eq] at hread
    cases htree : Tree.read blob size with
    | error e =>
      rw [htree] at hread
      cases hread
    | ok tree =>
      rw [htree] at hread
      cases hread
      have htotal : tree.totalSize < 2 ^ 32 := by
        rw [← tree.length_encode]
        exact hsize
      have hencodable : tree.Encodable := ⟨htotal, Tree.entries_of_read htree⟩
      exact hencodable.framed
  | limit _ _ ih => exact ih.of_header_eq rfl rfl
  | edit command _ hsize ih => exact command.framed_runInPlace ih hsize

theorem of_reached {tree : Tree} (h : Reached tree image) : image.History := by
  induction h with
  | empty hsize => exact .empty hsize
  | @read blob size tree image htree himage hsize =>
    refine .read himage ?_
    rw [Image.read_eq, htree] at himage
    cases himage
    exact tree.length_encode.trans_lt hsize
  | limit limit _ ih => exact .limit limit ih
  | edit command hreached hcommand hsize ih =>
    obtain ⟨-, hafter⟩ := (hreached.edit command hcommand hsize).encodable
    refine .edit command ih ?_
    rw [hafter]
    exact (Tree.length_encode _).trans_lt hsize

/-- **No access is out of bounds.** On every image that edits lead to, a checked query gives the
answer of the query, and a checked edit the answer and the image of the edit. They fault only if the
entry of a list lies behind a number of argument cells that does not fit, or if a new size does not. -/
theorem inBounds (h : image.History) :
    (∀ {α : Type} (query : Query α), query.HasDepth →
      query.runChecked image =
          (query.run image.tree).map (fun answer => Image.ask (fun _ => answer) image) ∧
        (query.run image.tree = none ↔ query.Overruns image.tree)) ∧
    ∀ command : Command, command.runChecked image =
      if command.Overflows image then none else some (command.runInPlace image) := by
  have hframed := h.framed
  refine ⟨?_, fun command => command.runChecked_eq hframed⟩
  intro α query hdepth
  exact ⟨query.runChecked_eq hframed hdepth, query.run_eq_none_iff hframed.length_structBlock_lt⟩

end Image.History

/-- A root node that refers to itself. -/
def Tree.referring : Tree where
  bootCpu := 0
  reservations := []
  structBlock := ([.beginNode [], .property 0 (Bytes.word 1),
    .property 8 (Cells.encode [1, 188]), .endNode, .finish] : List Token).flatMap Token.encode
  strings := Bytes.ofText "phandle" ++ [0] ++ Bytes.ofText "power-domains" ++ [0]
  free := 10
  maxSize := none

theorem reached_referring : Reached Tree.referring Tree.referring.image := by
  have h₀ : Reached (Tree.empty 140) (Image.empty 140) := .empty (by decide)
  have h₁ := h₀.edit (.setCell ⟨0⟩ "phandle" 1) trivial (by cbv)
  have h₂ := h₁.edit (.setCells ⟨0⟩ "power-domains" [1, 188]) trivial (by cbv)
  have hedited : afterwards ((Command.setCells ⟨0⟩ "power-domains" [1, 188]).run
      (afterwards ((Command.setCell ⟨0⟩ "phandle" 1).run (Tree.empty 140)))) =
        Tree.referring := by cbv
  rw [hedited] at h₂
  obtain ⟨-, himage⟩ := h₂.encodable
  rw [himage] at h₂
  exact h₂

/-- An entry, a position behind all nodes and one in the middle of a node. -/
theorem Image.History.inBounds_referring :
    (Query.slotEntry ⟨0⟩ "power-domains" (.fixed 1) 0).runChecked Tree.referring.image =
        some (.ok (⟨0⟩, [188]) Tree.referring.image) ∧
      (Query.next ⟨100⟩ 0).runChecked Tree.referring.image =
        some (.error (.badOffset 100) Tree.referring.image) ∧
      (Command.setValue ⟨4⟩ "status" []).runChecked Tree.referring.image =
        some (.error (.badOffset 4) Tree.referring.image) := by
  have hreached := reached_referring
  obtain ⟨hencodable, -⟩ := hreached.encodable
  obtain ⟨hqueries, hcommands⟩ := (Image.History.of_reached hreached).inBounds
  have hentry : (Query.slotEntry ⟨0⟩ "power-domains" (.fixed 1) 0).run Tree.referring =
      some (.ok (⟨0⟩, [188])) := by cbv
  have hnext : (Query.next ⟨100⟩ 0).run Tree.referring = some (.error (.badOffset 100)) := by cbv
  have hset : (Command.setValue ⟨4⟩ "status" []).run Tree.referring =
      .error (.badOffset 4) Tree.referring := by cbv
  refine ⟨?_, ?_, ?_⟩
  · obtain ⟨hrun, -⟩ := hqueries (.slotEntry ⟨0⟩ "power-domains" (.fixed 1) 0) trivial
    rw [hrun, hencodable.tree_image, hentry]
    rfl
  · have hdepth : (Query.next ⟨100⟩ 0).HasDepth := ⟨by decide, by decide⟩
    obtain ⟨hrun, -⟩ := hqueries _ hdepth
    rw [hrun, hencodable.tree_image, hnext]
    rfl
  · have hno : ¬ (Command.setValue ⟨4⟩ "status" []).Overflows Tree.referring.image := id
    rw [hcommands, if_neg hno, hencodable.runInPlace, hset]
    rfl

/-- A number of argument cells that is too large for the list is found to be; one that is too large
for its sum with the position to be a word is not. -/
theorem Query.runChecked_referring : ∃ image : Image, image.History ∧
    (Query.slotEntry ⟨0⟩ "power-domains" (.fixed 2) 0).runChecked image =
        some (.error (.badValue 8) image) ∧
      (Query.slotEntry ⟨0⟩ "power-domains" (.fixed (2 ^ 64 - 1)) 0).runChecked image = none := by
  have hreached := reached_referring
  obtain ⟨hencodable, -⟩ := hreached.encodable
  have hlong : (Query.slotEntry ⟨0⟩ "power-domains" (.fixed 2) 0).run Tree.referring =
      some (.error (.badValue 8)) := by cbv
  have hfault : (Query.slotEntry ⟨0⟩ "power-domains" (.fixed (2 ^ 64 - 1)) 0).run
      Tree.referring = none := by cbv
  refine ⟨Tree.referring.image, .of_reached hreached, ?_, ?_⟩
  · rw [Query.runChecked_eq hencodable.framed _ (by exact trivial), hencodable.tree_image, hlong]
    rfl
  · rw [Query.runChecked_eq hencodable.framed _ (by exact trivial), hencodable.tree_image, hfault]
    rfl

end BootTree
