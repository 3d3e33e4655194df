import BootTree.Proofs.Image.Reached

/-!
# BootTree.Proofs.Image.Accepted

Which blobs are read, and into what. Blocks may be empty, overlap, lie inside the header or come in
any order; what counts is that each of them ends inside the part of the blob that the header claims,
and that the reservations end there as well.

* `Readable`: a blob with a header and reservations of which this is true.
* `Tree.TakenFrom`: what a tree has from a blob, and how large it is.
* `Readable.read`: the tree that such a blob is read into.
* `Tree.exists_readable_of_read`: no other blob is read.
* `Tree.exists_read_iff_readable`: both, for trees and for images.
-/

namespace BootTree

open Blob

/-- A blob that has this header and these reservations. What its header claims is there, and all
blocks end inside it. -/
structure Readable (blob : Bytes) (header : Header) (entries : List Reservation) : Prop where
  front : header.encode <+: blob
  magic : header.magic = Blob.magic
  version : layoutVersion ≤ header.version
  lastCompatible : header.lastCompatible ≤ layoutVersion
  claimed : header.totalSize.toNat ≤ blob.length
  /-- The entries stand one after the other, with an all-zero one behind them. -/
  reservations : Reservation.encodeBlock entries <+: blob.drop header.reservationsOffset.toNat
  first : Reservation.terminator ∉ entries
  terminated : header.reservationsOffset.toNat + entrySize * (entries.length + 1) ≤
    header.totalSize.toNat
  structure_le : header.structOffset.toNat + header.structSize.toNat ≤ header.totalSize.toNat
  strings_le : header.stringsOffset.toNat + header.stringsSize.toNat ≤ header.totalSize.toNat

namespace Tree

/-- What a tree of at least `size` bytes has from the blob with this header and these
reservations. -/
structure TakenFrom (tree : Tree) (blob : Bytes) (size : Nat) (header : Header)
    (entries : List Reservation) : Prop where
  structBlock : tree.structBlock = blob.slice header.structOffset.toNat header.structSize.toNat
  strings : tree.strings = blob.slice header.stringsOffset.toNat header.stringsSize.toNat
  bootCpu : tree.bootCpu = header.bootCpu
  reserved : tree.reserved = entries
  maxSize : tree.maxSize = none
  /-- The blocks are laid out anew, which may need more than the blob had. -/
  totalSize : tree.totalSize = max (max size header.totalSize.toNat)
    (headerSize + entrySize * (entries.length + 1) + header.structSize.toNat +
      header.stringsSize.toNat)

/-- A block is found if it ends inside the claimed part of a blob, and then it is a slice of the
blob. -/
theorem block_take {blob : Bytes} {total offset size : Nat} (htotal : total ≤ blob.length) :
    block (blob.take total) offset size =
      if offset + size ≤ total then .ok (blob.slice offset size) else .error (.truncated total) := by
  have hlength : (blob.take total).length = total := by
    rw [List.length_take]
    omega
  rw [block, hlength]
  split
  · rename_i hin
    rw [Bytes.slice, List.drop_take, List.take_take, Nat.min_eq_left (by omega)]
  · rfl

theorem le_of_block {blob bytes : Bytes} {total offset size : Nat} (htotal : blob.length = total)
    (h : block blob offset size = .ok bytes) : offset + size ≤ total := by
  subst htotal
  by_contra hin
  rw [block, if_neg hin] at h
  cases h

end Tree

/-! ## Readable blobs are read -/

namespace Readable

variable {blob : Bytes} {header : Header} {entries : List Reservation}

theorem supports (h : Readable blob header entries) :
    Header.supports header.version header.lastCompatible = true := by
  simp [Header.supports, h.version, h.lastCompatible]

theorem length_claimed (h : Readable blob header entries) :
    (blob.take header.totalSize.toNat).length = header.totalSize.toNat :=
  List.length_take_of_le h.claimed

theorem readBlock (h : Readable blob header entries) :
    Reservation.readBlock ((blob.take header.totalSize.toNat).drop
      header.reservationsOffset.toNat) = .ok entries := by
  have hinside : Reservation.encodeBlock entries <+:
      (blob.take header.totalSize.toNat).drop header.reservationsOffset.toNat := by
    rw [List.drop_take, List.prefix_take_iff, Reservation.length_encodeBlock]
    refine ⟨h.reservations, ?_⟩
    have := h.terminated
    omega
  obtain ⟨rest, hrest⟩ := hinside
  rw [← hrest]
  exact Reservation.readBlock_encodeBlock h.first rest

/-- The tree that a blob is read into has the blob's blocks, laid out anew. -/
theorem read (h : Readable blob header entries) (size : Nat) :
    Tree.read blob size = .ok (Tree.ofBlocks header.bootCpu entries
      (blob.slice header.structOffset.toNat header.structSize.toNat)
      (blob.slice header.stringsOffset.toNat header.stringsSize.toNat)
      (max size header.totalSize.toNat)) := by
  have hheader : Header.read blob = .ok header := by
    obtain ⟨rest, hrest⟩ := h.front
    rw [← hrest]
    exact Header.read_encode_append h.magic h.supports rest
  have hsize : ¬ blob.length < header.totalSize.toNat := Nat.not_lt.2 h.claimed
  have hoffset : ¬ (blob.take header.totalSize.toNat).length <
      header.reservationsOffset.toNat := by
    have hlength := h.length_claimed
    have hterminated := h.terminated
    omega
  unfold Tree.read
  rw [hheader]
  simp only [bind, Except.bind, Except.mapError]
  rw [if_neg hsize, if_neg hoffset, h.readBlock, Tree.block_take h.claimed,
    Tree.block_take h.claimed, if_pos h.structure_le, if_pos h.strings_le]
  rfl

theorem length_slice (h : Readable blob header entries) {offset size : Nat}
    (hin : offset + size ≤ header.totalSize.toNat) : (blob.slice offset size).length = size := by
  have hclaimed := h.claimed
  rw [Bytes.slice, List.length_take, List.length_drop]
  omega

theorem takenFrom (h : Readable blob header entries) (size : Nat) :
    (Tree.ofBlocks header.bootCpu entries
      (blob.slice header.structOffset.toNat header.structSize.toNat)
      (blob.slice header.stringsOffset.toNat header.stringsSize.toNat)
      (max size header.totalSize.toNat)).TakenFrom blob size header entries where
  structBlock := rfl
  strings := rfl
  bootCpu := rfl
  reserved := Tree.reserved_eq h.first
  maxSize := rfl
  totalSize := by
    rw [Tree.totalSize_ofBlocks, h.length_slice h.structure_le, h.length_slice h.strings_le,
      max_comm]

end Readable

/-! ## No other blob is read -/

namespace Tree

theorem exists_readable_of_read {blob : Bytes} {size : Nat} {tree : Tree}
    (h : read blob size = .ok tree) : ∃ header entries, Readable blob header entries := by
  unfold read at h
  obtain ⟨header, hheader, h⟩ := exists_of_bind_eq_ok h
  obtain ⟨hfront, hmagic, hsupports⟩ := Header.isPrefix_of_read (mapError_eq_ok_iff.1 hheader)
  simp only [Header.supports, Bool.and_eq_true, decide_eq_true_eq] at hsupports
  by_cases hclaimed : blob.length < header.totalSize.toNat
  · rw [if_pos hclaimed] at h
    cases h
  rw [if_neg hclaimed] at h
  have hlength : (blob.take header.totalSize.toNat).length = header.totalSize.toNat :=
    List.length_take_of_le (Nat.not_lt.1 hclaimed)
  by_cases hoffset : (blob.take header.totalSize.toNat).length < header.reservationsOffset.toNat
  · rw [if_pos hoffset] at h
    cases h
  rw [if_neg hoffset] at h
  obtain ⟨entries, hentries, h⟩ := exists_of_bind_eq_ok h
  obtain ⟨structBlock, hstruct, h⟩ := exists_of_bind_eq_ok h
  obtain ⟨strings, hstrings, -⟩ := exists_of_bind_eq_ok h
  obtain ⟨hfirst, htake⟩ := Reservation.take_of_readBlock (mapError_eq_ok_iff.1 hentries)
  have hreservations := List.take_prefix (entrySize * (entries.length + 1))
    ((blob.take header.totalSize.toNat).drop header.reservationsOffset.toNat)
  rw [htake, List.drop_take, List.prefix_take_iff, Reservation.length_encodeBlock] at hreservations
  obtain ⟨hreservations, hterminated⟩ := hreservations
  refine ⟨header, entries, hfront, hmagic, hsupports.1, hsupports.2, Nat.not_lt.1 hclaimed,
    hreservations, hfirst, ?_, le_of_block hlength hstruct, le_of_block hlength hstrings⟩
  omega

/-- **Which blobs are read, and into what.** The image that a blob is copied into is the image of
the tree; its header gives the tree's size and blocks wherever sizes are words. -/
theorem exists_read_iff_readable (blob : Bytes) (size : Nat) :
    ((∃ tree, read blob size = .ok tree) ↔ ∃ header entries, Readable blob header entries) ∧
      ∀ header entries, Readable blob header entries →
        ∃ tree, read blob size = .ok tree ∧ tree.TakenFrom blob size header entries ∧
          Image.read blob size = .ok tree.image ∧
          (tree.totalSize < 2 ^ 32 → tree.image.tree = tree ∧
            tree.image.bytes.length = tree.totalSize ∧
            tree.image.header.totalSize.toNat = tree.totalSize) := by
  refine ⟨⟨?_, ?_⟩, ?_⟩
  · rintro ⟨tree, htree⟩
    exact exists_readable_of_read htree
  · rintro ⟨header, entries, h⟩
    exact ⟨_, h.read size⟩
  · intro header entries h
    refine ⟨_, h.read size, h.takenFrom size, ?_, ?_⟩
    · rw [Image.read_eq, h.read size]
      rfl
    · intro hsize
      have hencodable : Encodable _ := ⟨hsize, h.first⟩
      exact ⟨hencodable.tree_image, length_encode _, hencodable.totalSize⟩

/-- A blob whose structure block lies inside its header and whose strings block is empty. Laid out
anew it is larger. -/
def overlapping : Bytes :=
  ([0xd00dfeed, 56, 0, 56, 40, 17, 16, 3, 0, 28, 0, 0, 0, 0] : List UInt32).flatMap Bytes.word

theorem exists_read_overlapping : ∃ tree, read overlapping 0 = .ok tree ∧
    tree.structBlock = overlapping.take 28 ∧ tree.bootCpu = 3 ∧ tree.totalSize = 84 := by
  let header : Header := ⟨0xd00dfeed, 56, 0, 56, 40, 17, 16, 3, 0, 28⟩
  have hreadable : Readable overlapping header [] := by
    constructor <;> decide
  obtain ⟨tree, hread, htaken, -⟩ := (exists_read_iff_readable overlapping 0).2 header [] hreadable
  exact ⟨tree, hread, htaken.structBlock, htaken.bootCpu, htaken.totalSize⟩

end Tree

end BootTree
