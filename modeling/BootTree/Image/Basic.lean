import BootTree.Tree.Basic

/-!
# BootTree.Image.Basic

A device tree held as one buffer, the way it is handed from one boot stage to the next: the bytes
of the blob and a copy of its header. Nothing else says where the blocks are.

* `Bytes.slice`, `Bytes.overwrite`: reading and writing a stretch of a buffer.
* `Image.empty`, `Image.read`: making images; `Image.assemble` writes the blocks one by one.
* `Image.tree`: the tree whose blocks the header points at.
* `Tree.image`: the image of a tree, whose buffer is the blob of the tree.
-/

namespace BootTree

open Blob

namespace Bytes

def slice (bytes : Bytes) (offset count : Nat) : Bytes := (bytes.drop offset).take count

/-- `bytes` with `new` written over what stands at `offset`. -/
def overwrite (bytes : Bytes) (offset : Nat) (new : Bytes) : Bytes :=
  splice bytes offset new.length new

end Bytes

structure Image where
  header : Header
  bytes : Bytes
  maxSize : Option Nat
  deriving DecidableEq, Repr

namespace Image

def structBlock (image : Image) : Bytes :=
  image.bytes.slice image.header.structOffset.toNat image.header.structSize.toNat

def strings (image : Image) : Bytes :=
  image.bytes.slice image.header.stringsOffset.toNat image.header.stringsSize.toNat

def usedSize (image : Image) : Nat := (image.header.stringsOffset + image.header.stringsSize).toNat

def free (image : Image) : Nat := image.bytes.length - image.usedSize

def tree (image : Image) : Tree where
  bootCpu := image.header.bootCpu
  reservations :=
    (Reservation.entries? (image.bytes.drop image.header.reservationsOffset.toNat)).getD []
  structBlock := image.structBlock
  strings := image.strings
  free := image.free
  maxSize := image.maxSize

/-! ## Making images -/

def commit (image : Image) : Image :=
  { image with bytes := image.bytes.overwrite 0 image.header.encode }

/-- The image with the given blocks behind each other, padded with zeros to `size` bytes. The
reservation block is given with its terminator. -/
def assemble (bootCpu : UInt32) (reservations structBlock strings : Bytes) (size : Nat) : Image :=
  let structOffset := headerSize + reservations.length
  let stringsOffset := structOffset + structBlock.length
  let total := max (stringsOffset + strings.length) size
  let cleared := Bytes.zeros total
  let reserved := cleared.overwrite headerSize reservations
  let structured := reserved.overwrite structOffset structBlock
  commit {
    header := {
      magic := Blob.magic
      totalSize := UInt32.ofNat total
      structOffset := UInt32.ofNat structOffset
      stringsOffset := UInt32.ofNat stringsOffset
      reservationsOffset := UInt32.ofNat headerSize
      version := layoutVersion
      lastCompatible := lastCompatibleVersion
      bootCpu
      stringsSize := UInt32.ofNat strings.length
      structSize := UInt32.ofNat structBlock.length }
    bytes := structured.overwrite stringsOffset strings
    maxSize := none }

def empty (size : Nat) : Image :=
  assemble 0 (Bytes.zeros entrySize) Tree.emptyStructure [] size

/-- Copy the blocks of a blob into an image of at least `size` bytes. -/
def read (blob : Bytes) (size : Nat) : Except TreeError Image := do
  let header ← (Header.read blob).mapError .header
  if blob.length < header.totalSize.toNat then throw (.truncated blob.length)
  let blob := blob.take header.totalSize.toNat
  if blob.length < header.reservationsOffset.toNat then throw (.truncated blob.length)
  let tail := blob.drop header.reservationsOffset.toNat
  let entries ← (Reservation.readBlock tail).mapError .reservations
  let structBlock ← Tree.block blob header.structOffset.toNat header.structSize.toNat
  let strings ← Tree.block blob header.stringsOffset.toNat header.stringsSize.toNat
  return assemble header.bootCpu (tail.take (entrySize * (entries.length + 1))) structBlock strings
    (max size header.totalSize.toNat)

def withMaxSize (image : Image) (limit : Nat) : Image := { image with maxSize := some limit }

end Image

def Tree.image (tree : Tree) : Image := ⟨tree.header, tree.encode, tree.maxSize⟩

end BootTree
