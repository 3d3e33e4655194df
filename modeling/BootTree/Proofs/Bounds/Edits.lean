import BootTree.Image.Edit
import BootTree.Proofs.Bounds.Queries

/-!
# BootTree.Proofs.Bounds.Edits

The edits of an image with every access checked: the blocks in the buffer, the stretch that is moved
and the place it is moved to, the bytes that are written, and the words of the header. Sums of header
words are taken modulo 2³² and may pass that on the way; what they come to has to be a word again.

* `CheckedEdit`: an edit of an image that may fault.
* `CheckedEdit.within`: an edit that is only made where its accesses are in bounds.
* `Command.runChecked`: all edits.
-/

namespace BootTree

open Blob

/-- An edit of an image, or `none`: a fault. -/
def CheckedEdit (α : Type) : Type := Image → Option (EStateM.Result TreeError Image α)

namespace CheckedEdit

variable {α β : Type}

instance : Monad CheckedEdit where
  pure a := fun image => some (.ok a image)
  bind x f := fun image =>
    match x image with
    | none => none
    | some (.error e after) => some (.error e after)
    | some (.ok a after) => f a after

theorem bind_of_ok {checked : CheckedEdit α} {image after : Image} {a : α}
    (h : checked image = some (.ok a after)) (f : α → CheckedEdit β) :
    (checked >>= f) image = f a after := by
  simp only [bind, h]

theorem bind_of_error {checked : CheckedEdit α} {image after : Image} {e : TreeError}
    (h : checked image = some (.error e after)) (f : α → CheckedEdit β) :
    (checked >>= f) image = some (.error e after) := by
  simp only [bind, h]

def fail (e : TreeError) : CheckedEdit α := fun image => some (.error e image)

/-- An edit that is only made where its accesses are in bounds. -/
def within (bounds : Image → Prop) [DecidablePred bounds] (edit : InPlace α) : CheckedEdit α :=
  fun image => if bounds image then some (edit image) else none

end CheckedEdit

/-! ## What an image has to have -/

namespace Image

/-- The blocks can be sliced out of the buffer. -/
abbrev HasBlocks (image : Image) : Prop :=
  image.header.structOffset.toNat + image.header.structSize.toNat ≤ image.bytes.length ∧
    image.header.stringsOffset.toNat + image.header.stringsSize.toNat ≤ image.bytes.length

/-- The free space behind the blocks can be counted. -/
abbrev HasFree (image : Image) : Prop :=
  image.header.stringsOffset.toNat + image.header.stringsSize.toNat < 2 ^ 32 ∧
    image.usedSize ≤ image.bytes.length

/-- The header can be written. -/
abbrev HasHeader (image : Image) : Prop := headerSize ≤ image.bytes.length

end Image

/-! ## The edits -/

namespace CheckedEdit

/-- A query of the tree that the image holds. -/
def ask {α : Type} (query : Tree → Checked α) : CheckedEdit α := fun image =>
  if image.HasBlocks then
    match query image.tree with
    | .fault => none
    | .of outcome => some (Image.ask (fun _ => outcome) image)
  else none

/-- Nothing is moved if there is too little free space. Otherwise the bytes between the stretch and
the end of the strings block are there, there is room where they go, and as many bytes as are no
longer used can be cleared behind them. -/
def splice (place old new : Nat) : CheckedEdit Unit :=
  within (fun image => image.HasFree ∧ (new - old ≤ image.free →
      place + old ≤ image.usedSize ∧
      place + new + (image.usedSize - (place + old)) ≤ image.bytes.length ∧
      old - new ≤ image.usedSize))
    (Image.splice place old new)

def spliceStruct (offset old new : Nat) : CheckedEdit Unit := do
  let image ← within (fun _ => True) get
  splice (image.header.structOffset.toNat + offset) old new
  within (fun image => image.HasHeader ∧
      old ≤ image.header.structSize.toNat + new ∧
      image.header.structSize.toNat + new - old < 2 ^ 32 ∧
      old ≤ image.header.stringsOffset.toNat + new ∧
      image.header.stringsOffset.toNat + new - old < 2 ^ 32)
    (modify fun image => Image.commit { image with
      header := { image.header with
        structSize := image.header.structSize + UInt32.ofNat new - UInt32.ofNat old
        stringsOffset := image.header.stringsOffset + UInt32.ofNat new - UInt32.ofNat old } })

/-- Write `new` at `k` of the `size` bytes at `offset` of the structure block. -/
def write (offset size k : Nat) (new : Bytes) : CheckedEdit Unit :=
  within (fun image => image.HasBlocks ∧ offset + size ≤ image.header.structSize.toNat ∧
      k + new.length ≤ size)
    (modify (·.writeStruct (offset + k) new))

def appendName (name : Bytes) : CheckedEdit UInt32 :=
  within (fun image => image.HasFree ∧ (name.length + 1 ≤ image.free →
      image.HasHeader ∧ image.usedSize + name.length < image.bytes.length ∧
      image.header.stringsSize.toNat + (name.length + 1) < 2 ^ 32))
    (Image.appendName name)

def reserve (entry : Reservation) : CheckedEdit Unit := do
  let image ← within (fun image => entrySize ≤ image.header.structOffset.toNat) get
  let place := image.header.structOffset.toNat - entrySize
  splice place 0 entrySize
  within (fun image => image.HasHeader ∧ place + entrySize ≤ image.bytes.length ∧
      image.header.structOffset.toNat + entrySize < 2 ^ 32 ∧
      image.header.stringsOffset.toNat + entrySize < 2 ^ 32)
    (modify fun image => Image.commit { image with
      header := { image.header with
        structOffset := image.header.structOffset + UInt32.ofNat entrySize
        stringsOffset := image.header.stringsOffset + UInt32.ofNat entrySize }
      bytes := image.bytes.overwrite place entry.encode })

/-- The new size is a 64-bit word. -/
def grow (increment : Nat) : CheckedEdit Unit :=
  within (fun image => image.bytes.length + increment < 2 ^ 64 ∧ image.HasHeader)
    (Image.grow increment)

def internName (name : Bytes) : CheckedEdit UInt32 := do
  let image ← within Image.HasBlocks get
  match Strings.find? image.strings name with
  | some offset => return UInt32.ofNat offset
  | none => appendName name

def openValue (old : Located) (value : Bytes) : CheckedEdit Nat := do
  spliceStruct (old.offset + Token.propertyHead) (Bytes.alignUp old.value.length)
    (Bytes.alignUp value.length)
  return old.offset

def openProperty (node : NodeRef) (name value : Bytes) : CheckedEdit Nat := do
  let image ← within (fun image => image.HasBlocks ∧ image.HasFree) get
  let nameSize := if (Strings.find? image.strings name).isSome then 0 else name.length + 1
  let needed := Token.propertyHead + Bytes.alignUp value.length + nameSize
  if image.free < needed then fail (.noSpace needed)
  else
    let nameOffset ← internName name
    let offset ← ask fun tree => .of (tree.propertiesEnd node)
    spliceStruct offset 0 (Token.propertyHead + Bytes.alignUp value.length)
    write offset Token.propertyHead 0 (Bytes.word 3)
    write offset Token.propertyHead 8 (Bytes.word nameOffset)
    return offset

def setValue (node : NodeRef) (name value : Bytes) : CheckedEdit Unit := do
  let offset ←
    match ← ask fun tree => .of (tree.property? node name) with
    | some old => openValue old value
    | none => openProperty node name value
  write (offset + 4) 4 0 (Bytes.word (UInt32.ofNat value.length))
  write (offset + Token.propertyHead) (Bytes.alignUp value.length) 0 (Bytes.padded value)

def addChild (parent : NodeRef) (name : Bytes) : CheckedEdit NodeRef := do
  if Tree.isNodeName name then
    if (← ask fun tree => Checked.namesake? tree parent name).isSome then fail .alreadyExists
    else
      let offset ← ask fun tree => .of (tree.propertiesEnd parent)
      let size := 8 + Bytes.alignUp (name.length + 1)
      spliceStruct offset 0 size
      write offset size 0 (Bytes.zeros size)
      write offset size 0 (Bytes.word 1)
      write offset size 4 name
      write offset size (size - 4) (Bytes.word 2)
      return ⟨offset⟩
  else fail .badName

end CheckedEdit

def Command.runChecked : Command → CheckedEdit Unit
  | grow increment => CheckedEdit.grow increment
  | reserve entry => CheckedEdit.reserve entry
  | setValue node name value => CheckedEdit.setValue node name value
  | setCell node name cell => CheckedEdit.setValue node name (Bytes.word cell)
  | setDoubleCell node name cell => CheckedEdit.setValue node name (Bytes.doubleWord cell)
  | setCells node name cells => CheckedEdit.setValue node name (Cells.encode cells)
  | setText node name text => CheckedEdit.setValue node name (text ++ [0])
  | addChild parent name => do
    let _ ← CheckedEdit.addChild parent name
    return ()

/-- A command that asks for a size that is no 64-bit word. -/
def Command.Overflows (image : Image) : Command → Prop
  | grow increment => 2 ^ 64 ≤ image.bytes.length + increment
  | _ => False

instance (image : Image) : (command : Command) → Decidable (command.Overflows image)
  | .grow increment => inferInstanceAs (Decidable (2 ^ 64 ≤ image.bytes.length + increment))
  | .reserve _ | .setValue _ _ _ | .setCell _ _ _ | .setDoubleCell _ _ _ | .setCells _ _ _
  | .setText _ _ _ | .addChild _ _ => inferInstanceAs (Decidable False)

end BootTree
