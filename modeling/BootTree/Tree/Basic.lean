import BootTree.Blob.Header
import BootTree.Blob.Reservation
import BootTree.Blob.Token
import BootTree.Tree.Error

/-!
# BootTree.Tree.Basic

A flattened device tree that can be edited. The tree is held as its blocks; the blob, with its
header and all offsets, is a view of them. Blocks are laid out without gaps in one order: header,
reservations, structure, strings, and then free space, which is all zero.

* `Tree.encode` — the blob of a tree, `Tree.header` its header; `length_encode` says that its length
  is the tree's total size.
* `Tree.read` — the tree of a blob, whatever order its blocks are in.
* `Tree.empty` — a tree of nothing but a root node.
* `Tree.reserved` — the reservations a reader of the blob sees.
-/

namespace BootTree

open Blob

structure Tree where
  bootCpu : UInt32
  /-- The entries of the reservation block in front of its last one, which is all zero. -/
  reservations : List Reservation
  structBlock : Bytes
  strings : Bytes
  /-- Bytes that edits may still use. -/
  free : Nat
  /-- How large the blob may be made by growing it. -/
  maxSize : Option Nat
  deriving DecidableEq, Repr

namespace Tree

/-! ## Layout -/

def structOffset (tree : Tree) : Nat := headerSize + entrySize * (tree.reservations.length + 1)

def stringsOffset (tree : Tree) : Nat := tree.structOffset + tree.structBlock.length

def usedSize (tree : Tree) : Nat := tree.stringsOffset + tree.strings.length

def totalSize (tree : Tree) : Nat := tree.usedSize + tree.free

def header (tree : Tree) : Header where
  magic := Blob.magic
  totalSize := UInt32.ofNat tree.totalSize
  structOffset := UInt32.ofNat tree.structOffset
  stringsOffset := UInt32.ofNat tree.stringsOffset
  reservationsOffset := UInt32.ofNat headerSize
  version := layoutVersion
  lastCompatible := lastCompatibleVersion
  bootCpu := tree.bootCpu
  stringsSize := UInt32.ofNat tree.strings.length
  structSize := UInt32.ofNat tree.structBlock.length

def encode (tree : Tree) : Bytes :=
  tree.header.encode ++ Reservation.encodeBlock tree.reservations ++ tree.structBlock ++
    tree.strings ++ Bytes.zeros tree.free

@[simp] theorem length_encode (tree : Tree) : tree.encode.length = tree.totalSize := by
  simp [encode, totalSize, usedSize, stringsOffset, structOffset, Nat.add_assoc]

/-- The reservations that a reader of the blob sees: it stops at the first entry that is all zero. -/
def reserved (tree : Tree) : List Reservation :=
  tree.reservations.takeWhile (· ≠ Reservation.terminator)

/-! ## Making trees -/

/-- The tree with the given blocks, padded with free space to at least `size` bytes. -/
def ofBlocks (bootCpu : UInt32) (reservations : List Reservation) (structBlock strings : Bytes)
    (size : Nat) : Tree :=
  let tree : Tree := ⟨bootCpu, reservations, structBlock, strings, 0, none⟩
  { tree with free := size - tree.usedSize }

theorem totalSize_ofBlocks (bootCpu : UInt32) (reservations : List Reservation)
    (structBlock strings : Bytes) (size : Nat) :
    (ofBlocks bootCpu reservations structBlock strings size).totalSize =
      max (headerSize + entrySize * (reservations.length + 1) + structBlock.length + strings.length)
        size := by
  simp only [ofBlocks, totalSize, usedSize, stringsOffset, structOffset]; omega

def emptyStructure : Bytes :=
  (Token.beginNode []).encode ++ Token.endNode.encode ++ Token.finish.encode

def empty (size : Nat) : Tree := ofBlocks 0 [] emptyStructure [] size

def block (blob : Bytes) (offset size : Nat) : Except TreeError Bytes :=
  if offset + size ≤ blob.length then .ok ((blob.drop offset).take size)
  else .error (.truncated blob.length)

/-- Read a blob into a tree of at least `size` bytes. Only the part of the blob that its header
claims is looked at. -/
def read (blob : Bytes) (size : Nat) : Except TreeError Tree := do
  let header ← (Header.read blob).mapError .header
  if blob.length < header.totalSize.toNat then throw (.truncated blob.length)
  let blob := blob.take header.totalSize.toNat
  if blob.length < header.reservationsOffset.toNat then throw (.truncated blob.length)
  let reservations ← (Reservation.readBlock (blob.drop header.reservationsOffset.toNat)).mapError
    .reservations
  let structBlock ← block blob header.structOffset.toNat header.structSize.toNat
  let strings ← block blob header.stringsOffset.toNat header.stringsSize.toNat
  return ofBlocks header.bootCpu reservations structBlock strings (max size header.totalSize.toNat)

def load (memory : Nat → UInt8) (address size : Nat) : Except TreeError Tree := do
  let header ← (Header.load memory address).mapError .header
  read (Header.memoryRange memory address header.totalSize.toNat) size

def withMaxSize (tree : Tree) (limit : Nat) : Tree := { tree with maxSize := some limit }

end Tree

end BootTree
