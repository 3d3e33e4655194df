import BootTree.Image.Basic
import BootTree.Proofs.Blob.Blocks

/-!
# BootTree.Proofs.Image.Layout

How the blocks lie in the buffer of an image, and that reading the buffer gives the tree back. The
blocks are found in the buffer of every tree that fits the 32-bit offsets of a header, and all of the
tree if its reservations do not contain the terminator; the structure block may be any bytes.

* `Tree.Sized`, `Tree.Encodable`: the trees in question.
* `Tree.Sized.tree_image`: what a reader of a tree's image sees, up to the first terminator;
  `Tree.Encodable.tree_image`: all of the tree.
* `Tree.Sized.read_encode`: reading the blob of a tree gives what a reader sees; `Tree.read_encode`:
  that is the tree without its growth limit.
* `Image.read_eq`: copying a blob into an image and reading it into a tree are the same.
-/

namespace BootTree

open Blob

/-! ## Stretches of a buffer -/

namespace Bytes

variable {front mid behind new : Bytes} {offset : Nat}

theorem splice_mid (hoffset : offset = front.length) (new : Bytes) :
    (front ++ (mid ++ behind)).splice offset mid.length new = front ++ (new ++ behind) := by
  subst hoffset
  rw [splice, List.take_left, List.append_assoc, ← List.append_assoc front mid behind,
    ← List.length_append, List.drop_left]

theorem overwrite_mid (hoffset : offset = front.length) (hnew : new.length = mid.length) :
    (front ++ (mid ++ behind)).overwrite offset new = front ++ (new ++ behind) := by
  rw [overwrite, hnew, splice_mid hoffset]

theorem overwrite_front (hnew : new.length = front.length) :
    (front ++ behind).overwrite 0 new = new ++ behind := by
  rw [overwrite, splice, hnew, Nat.zero_add, List.drop_left, List.take_zero, List.nil_append]

theorem overwrite_append_right (front bytes : Bytes) (k : Nat) (new : Bytes) :
    (front ++ bytes).overwrite (front.length + k) new = front ++ bytes.overwrite k new := by
  simp only [overwrite, splice, Nat.add_assoc, List.take_length_add_append,
    List.drop_length_add_append, List.append_assoc]

theorem overwrite_append_left {bytes : Bytes} (h : offset + new.length ≤ bytes.length)
    (behind : Bytes) : (bytes ++ behind).overwrite offset new = bytes.overwrite offset new ++ behind := by
  simp only [overwrite, splice, List.append_assoc]
  rw [List.take_append_of_le_length (by omega), List.drop_append_of_le_length (by omega)]

@[simp] theorem overwrite_nil (bytes : Bytes) (offset : Nat) : bytes.overwrite offset [] = bytes := by
  simp [overwrite, splice]

theorem length_overwrite {bytes : Bytes} (h : offset + new.length ≤ bytes.length) :
    (bytes.overwrite offset new).length = bytes.length := by
  have := @length_splice bytes new offset new.length h
  rw [overwrite]
  omega

theorem slice_mid (hoffset : offset = front.length) :
    (front ++ (mid ++ behind)).slice offset mid.length = mid := by
  subst hoffset
  rw [slice, List.drop_left, List.take_left]

theorem exists_cut {bytes : Bytes} {count : Nat} (h : offset + count ≤ bytes.length) :
    ∃ front mid behind : Bytes, bytes = front ++ (mid ++ behind) ∧ front.length = offset ∧
      mid.length = count := by
  refine ⟨bytes.take offset, (bytes.drop offset).take count, (bytes.drop offset).drop count,
    ?_, ?_, ?_⟩
  · rw [List.take_append_drop, List.take_append_drop]
  · rw [List.length_take]
    omega
  · rw [List.length_take, List.length_drop]
    omega

theorem zeros_add (m n : Nat) : zeros (m + n) = zeros m ++ zeros n :=
  (List.replicate_append_replicate ..).symm

end Bytes

/-! ## The blob of a tree -/

namespace Tree

structure Encodable (tree : Tree) : Prop where
  size : tree.totalSize < 2 ^ 32
  entries : Reservation.terminator ∉ tree.reservations

/-- A tree whose header can say how large it is. -/
structure Sized (tree : Tree) : Prop where
  size : tree.totalSize < 2 ^ 32

/-- A reader sees all reservations exactly if none of them looks like the terminator. -/
theorem reserved_eq_iff {tree : Tree} :
    tree.reserved = tree.reservations ↔ Reservation.terminator ∉ tree.reservations := by
  rw [reserved, List.takeWhile_eq_self_iff]
  simp only [ne_eq, decide_eq_true_eq]
  constructor
  · intro hall hmem
    exact hall _ hmem rfl
  · rintro hnone entry hmem rfl
    exact hnone hmem

theorem reserved_eq {tree : Tree} (h : Reservation.terminator ∉ tree.reservations) :
    tree.reserved = tree.reservations := reserved_eq_iff.2 h

theorem Encodable.sized {tree : Tree} (h : tree.Encodable) : tree.Sized := ⟨h.size⟩

theorem encode_eq (tree : Tree) :
    tree.encode = tree.header.encode ++ (Reservation.encodeBlock tree.reservations ++
      (tree.structBlock ++ (tree.strings ++ Bytes.zeros tree.free))) := by
  simp only [encode, List.append_assoc]

theorem structOffset_eq_length (tree : Tree) : tree.structOffset =
    (tree.header.encode ++ Reservation.encodeBlock tree.reservations).length := by
  rw [List.length_append, Header.length_encode, Reservation.length_encodeBlock]; rfl

theorem stringsOffset_eq_length (tree : Tree) : tree.stringsOffset =
    (tree.header.encode ++ (Reservation.encodeBlock tree.reservations ++
      tree.structBlock)).length := by
  rw [← List.append_assoc, List.length_append, ← structOffset_eq_length]; rfl

namespace Sized

variable {tree : Tree} (h : tree.Sized)

include h

theorem structOffset : tree.header.structOffset.toNat = tree.structOffset := by
  have := h.size
  simp only [totalSize, usedSize, stringsOffset] at this
  rw [header, UInt32.toNat_ofNat', Nat.mod_eq_of_lt (by omega)]

theorem structSize : tree.header.structSize.toNat = tree.structBlock.length := by
  have := h.size
  simp only [totalSize, usedSize, stringsOffset] at this
  rw [header, UInt32.toNat_ofNat', Nat.mod_eq_of_lt (by omega)]

theorem stringsOffset : tree.header.stringsOffset.toNat = tree.stringsOffset := by
  have := h.size
  simp only [totalSize, usedSize] at this
  rw [header, UInt32.toNat_ofNat', Nat.mod_eq_of_lt (by omega)]

theorem stringsSize : tree.header.stringsSize.toNat = tree.strings.length := by
  have := h.size
  simp only [totalSize, usedSize] at this
  rw [header, UInt32.toNat_ofNat', Nat.mod_eq_of_lt (by omega)]

theorem totalSize : tree.header.totalSize.toNat = tree.totalSize := by
  have := h.size
  rw [header, UInt32.toNat_ofNat', Nat.mod_eq_of_lt this]

theorem usedSize : tree.image.usedSize = tree.usedSize := by
  have := h.size
  have hoffset := h.stringsOffset
  have hsize := h.stringsSize
  simp only [Tree.totalSize, Tree.usedSize] at this ⊢
  change (tree.header.stringsOffset + tree.header.stringsSize).toNat = _
  rw [UInt32.toNat_add, hoffset, hsize, Nat.mod_eq_of_lt (by omega)]

theorem free : tree.image.free = tree.free := by
  rw [Image.free, h.usedSize, image, length_encode, Tree.totalSize, Nat.add_sub_cancel_left]

theorem structBlock : tree.image.structBlock = tree.structBlock := by
  rw [Image.structBlock, image, h.structOffset, h.structSize, encode_eq, ← List.append_assoc]
  exact Bytes.slice_mid tree.structOffset_eq_length

theorem strings : tree.image.strings = tree.strings := by
  rw [Image.strings, image, h.stringsOffset, h.stringsSize, encode_eq,
    ← List.append_assoc (Reservation.encodeBlock _), ← List.append_assoc tree.header.encode]
  exact Bytes.slice_mid tree.stringsOffset_eq_length

/-- A reader sees the blocks of the tree; of the reservations, what is in front of the first
terminator. -/
theorem tree_image : tree.image.tree = { tree with reservations := tree.reserved } := by
  have hreserved : Reservation.entries? (tree.image.bytes.drop
      tree.image.header.reservationsOffset.toNat) = some tree.reserved := by
    change Reservation.entries? (tree.encode.drop headerSize) = _
    rw [encode_eq, List.drop_left' (Header.length_encode _)]
    exact Reservation.entries?_encodeBlock_append _ _
  rw [Image.tree, hreserved, h.structBlock, h.strings, h.free]
  rfl

end Sized

theorem Encodable.totalSize {tree : Tree} (h : tree.Encodable) :
    tree.header.totalSize.toNat = tree.totalSize := h.sized.totalSize

theorem Encodable.tree_image {tree : Tree} (h : tree.Encodable) : tree.image.tree = tree := by
  rw [h.sized.tree_image, reserved_eq h.entries]

/-! ## Reading a blob -/

theorem block_mid {front mid behind : Bytes} {offset size : Nat} (hoffset : offset = front.length)
    (hsize : size = mid.length) : block (front ++ (mid ++ behind)) offset size = .ok mid := by
  subst hoffset hsize
  rw [block, if_pos (by simp only [List.length_append]; omega)]
  exact congrArg Except.ok (Bytes.slice_mid rfl)

theorem read_of_blocks {blob : Bytes} {size : Nat} {header : Header} {entries : List Reservation}
    {structBlock strings : Bytes} (hheader : Header.read blob = .ok header)
    (hsize : header.totalSize.toNat = blob.length)
    (hoffset : header.reservationsOffset.toNat ≤ blob.length)
    (hentries : Reservation.readBlock (blob.drop header.reservationsOffset.toNat) = .ok entries)
    (hstruct : block blob header.structOffset.toNat header.structSize.toNat = .ok structBlock)
    (hstrings : block blob header.stringsOffset.toNat header.stringsSize.toNat = .ok strings) :
    read blob size = .ok (ofBlocks header.bootCpu entries structBlock strings
      (max size blob.length)) := by
  have htake : blob.take header.totalSize.toNat = blob :=
    List.take_of_length_le (Nat.le_of_eq hsize.symm)
  unfold read
  rw [hheader]
  simp only [bind, Except.bind, Except.mapError]
  rw [if_neg (by omega), htake, if_neg (by omega), hentries, hstruct, hstrings, hsize]
  rfl

/-- Reading the blob of a tree gives its blocks, and the reservations in front of the first
terminator. -/
theorem Sized.read_encode {tree : Tree} (h : tree.Sized) (size : Nat) :
    read tree.encode size = .ok (ofBlocks tree.bootCpu tree.reserved tree.structBlock tree.strings
      (max size tree.totalSize)) := by
  have hheader : Header.read tree.encode = .ok tree.header := by
    rw [encode_eq]
    exact Header.read_encode_append rfl (by rfl) _
  have hentries : Reservation.readBlock (tree.encode.drop tree.header.reservationsOffset.toNat) =
      .ok tree.reserved := by
    rw [encode_eq]
    change Reservation.readBlock (List.drop headerSize _) = _
    rw [List.drop_left' (Header.length_encode _)]
    exact Reservation.readBlock_encodeBlock_append _ _
  have hstruct : block tree.encode tree.header.structOffset.toNat tree.header.structSize.toNat =
      .ok tree.structBlock := by
    rw [encode_eq, ← List.append_assoc]
    exact block_mid (h.structOffset.trans tree.structOffset_eq_length) h.structSize
  have hstrings : block tree.encode tree.header.stringsOffset.toNat
      tree.header.stringsSize.toNat = .ok tree.strings := by
    rw [encode_eq, ← List.append_assoc (Reservation.encodeBlock _),
      ← List.append_assoc tree.header.encode]
    exact block_mid (h.stringsOffset.trans tree.stringsOffset_eq_length) h.stringsSize
  have hoffset : tree.header.reservationsOffset.toNat ≤ tree.encode.length := by
    rw [length_encode]
    change headerSize ≤ _
    simp only [Tree.totalSize, Tree.usedSize, Tree.stringsOffset, Tree.structOffset]
    omega
  rw [read_of_blocks hheader (by rw [h.totalSize, length_encode]) hoffset hentries hstruct hstrings,
    length_encode]
  rfl

/-- Reading the blob of a tree gives the tree back; only the limit of its size is not in the blob. -/
theorem read_encode {tree : Tree} (h : tree.Encodable) :
    read tree.encode 0 = .ok { tree with maxSize := none } := by
  have hfree : tree.totalSize - tree.usedSize = tree.free := by
    rw [totalSize, Nat.add_sub_cancel_left]
  rw [h.sized.read_encode, reserved_eq h.entries, Nat.zero_max]
  exact congrArg (fun free => Except.ok (ε := TreeError)
    (Tree.mk tree.bootCpu tree.reservations tree.structBlock tree.strings free none)) hfree

end Tree

/-! ## Writing the blocks one by one -/

namespace Image

/-- The blocks of a tree, written one by one into a cleared buffer, make up its blob. -/
theorem encode_eq_overwrite (tree : Tree) : tree.encode =
    ((((Bytes.zeros tree.totalSize).overwrite headerSize
      (Reservation.encodeBlock tree.reservations)).overwrite tree.structOffset
        tree.structBlock).overwrite tree.stringsOffset tree.strings).overwrite 0
          tree.header.encode := by
  have hzeros : Bytes.zeros tree.totalSize = Bytes.zeros headerSize ++
      (Bytes.zeros (entrySize * (tree.reservations.length + 1)) ++
        (Bytes.zeros tree.structBlock.length ++
          (Bytes.zeros tree.strings.length ++ Bytes.zeros tree.free))) := by
    simp only [Tree.totalSize, Tree.usedSize, Tree.stringsOffset, Tree.structOffset, Bytes.zeros_add,
      List.append_assoc]
  have hoffset : tree.structOffset = (Bytes.zeros headerSize ++
      Reservation.encodeBlock tree.reservations).length := by
    rw [tree.structOffset_eq_length, List.length_append, List.length_append, Bytes.length_zeros,
      Header.length_encode]
  have hbehind : tree.stringsOffset = (Bytes.zeros headerSize ++
      (Reservation.encodeBlock tree.reservations ++ tree.structBlock)).length := by
    rw [← List.append_assoc, List.length_append, ← hoffset, Tree.stringsOffset]
  rw [hzeros, Bytes.overwrite_mid (Bytes.length_zeros _).symm (by simp),
    ← List.append_assoc (Bytes.zeros headerSize), Bytes.overwrite_mid hoffset (by simp),
    List.append_assoc, ← List.append_assoc (Reservation.encodeBlock _),
    ← List.append_assoc (Bytes.zeros headerSize), Bytes.overwrite_mid hbehind (by simp),
    List.append_assoc, List.append_assoc]
  rw [Bytes.overwrite_front (by rw [Bytes.length_zeros, Header.length_encode]), tree.encode_eq]

theorem assemble_eq (bootCpu : UInt32) (entries : List Reservation) (structBlock strings : Bytes)
    (size : Nat) : assemble bootCpu (Reservation.encodeBlock entries) structBlock strings size =
      (Tree.ofBlocks bootCpu entries structBlock strings size).image := by
  have htotal : max (headerSize + entrySize * (entries.length + 1) + structBlock.length +
      strings.length) size = (Tree.ofBlocks bootCpu entries structBlock strings size).totalSize := by
    rw [Tree.totalSize_ofBlocks]
  unfold assemble
  rw [Reservation.length_encodeBlock]
  dsimp only
  rw [htotal, Tree.image, encode_eq_overwrite]
  rfl

theorem empty_eq (size : Nat) : empty size = (Tree.empty size).image :=
  assemble_eq 0 [] Tree.emptyStructure [] size

/-- Copying a blob into an image and reading it into a tree come to the same. -/
theorem read_eq (blob : Bytes) (size : Nat) :
    read blob size = (Tree.read blob size).map Tree.image := by
  unfold read Tree.read
  cases Header.read blob with
  | error e => rfl
  | ok header =>
    simp only [bind, Except.bind, Except.mapError]
    by_cases hsize : blob.length < header.totalSize.toNat
    · rw [if_pos hsize, if_pos hsize]
      rfl
    · rw [if_neg hsize, if_neg hsize]
      dsimp only [pure, Except.pure]
      by_cases hoffset : (blob.take header.totalSize.toNat).length <
          header.reservationsOffset.toNat
      · rw [if_pos hoffset, if_pos hoffset]
        rfl
      · rw [if_neg hoffset, if_neg hoffset]
        generalize hentries : Reservation.readBlock _ = entries
        cases entries with
        | error e => rfl
        | ok entries =>
          dsimp only
          generalize Tree.block _ header.structOffset.toNat _ = structBlock
          generalize Tree.block _ header.stringsOffset.toNat _ = strings
          cases structBlock with
          | error e => rfl
          | ok structBlock =>
            cases strings with
            | error e => rfl
            | ok strings =>
              refine congrArg Except.ok ?_
              rw [(Reservation.take_of_readBlock hentries).2]
              exact assemble_eq _ _ _ _ _

end Image

end BootTree
