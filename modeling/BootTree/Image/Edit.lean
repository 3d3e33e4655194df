import BootTree.Image.Basic
import BootTree.Tree.Edit

/-!
# BootTree.Image.Edit

The edits of a tree, made inside the buffer of its image. Bytes behind an edited stretch are moved
within the buffer, what a shrinking stretch leaves behind is cleared, and the header is changed
field by field and written again.

* `InPlace`: an edit of an image.
* `Image.splice`, `Image.spliceStruct`: move what stands behind a stretch.
* `Image.grow`, `Image.reserve`, `Image.setValue`, `Image.addChild`: the edits.
* `Command`: one edit as data, with `Command.run` for trees and `Command.runInPlace` for images.
-/

namespace BootTree

open Blob

/-- An edit of an image: what it answers, and the image afterwards, also when it fails. -/
abbrev InPlace := EStateM TreeError Image

namespace Image

def ask {α : Type} (query : Tree → Except TreeError α) : InPlace α := fun image =>
  match query image.tree with
  | .ok a => .ok a image
  | .error e => .error e image

def grow (increment : Nat) : InPlace Unit := fun image =>
  let size := image.bytes.length + increment
  let grown := commit { image with
    header := { image.header with totalSize := UInt32.ofNat size }
    bytes := image.bytes ++ Bytes.zeros increment }
  match image.maxSize with
  | none => .ok () grown
  | some limit => if limit < size then .error (.sizeLimit size limit) image else .ok () grown

/-! ## Moving bytes -/

/-- Make the `old` bytes at `place` `new` bytes long. Everything between them and the end of the
strings block moves, and bytes that are no longer used are cleared. -/
def splice (place old new : Nat) : InPlace Unit := fun image =>
  if old < new ∧ image.free < new - old then .error (.noSpace (new - old)) image
  else
    let used := image.usedSize
    let behind := image.bytes.slice (place + old) (used - (place + old))
    let moved := image.bytes.overwrite (place + new) behind
    let freed := old - new
    .ok () { image with bytes := moved.overwrite (used - freed) (Bytes.zeros freed) }

/-- The same for a stretch of the structure block. What the stretch holds then is unspecified. -/
def spliceStruct (offset old new : Nat) : InPlace Unit := do
  splice ((← get).header.structOffset.toNat + offset) old new
  modify fun image => commit { image with
    header := { image.header with
      structSize := image.header.structSize + UInt32.ofNat new - UInt32.ofNat old
      stringsOffset := image.header.stringsOffset + UInt32.ofNat new - UInt32.ofNat old } }

def writeStruct (offset : Nat) (new : Bytes) (image : Image) : Image :=
  { image with bytes := image.bytes.overwrite (image.header.structOffset.toNat + offset) new }

def appendName (name : Bytes) : InPlace UInt32 := fun image =>
  if image.free < name.length + 1 then .error (.noSpace (name.length + 1)) image
  else
    let named := image.bytes.overwrite image.usedSize name
    .ok image.header.stringsSize (commit { image with
      header := { image.header with
        stringsSize := image.header.stringsSize + UInt32.ofNat (name.length + 1) }
      bytes := named.overwrite (image.usedSize + name.length) [0] })

def reserve (entry : Reservation) : InPlace Unit := do
  let place := (← get).header.structOffset.toNat - entrySize
  splice place 0 entrySize
  modify fun image => commit { image with
    header := { image.header with
      structOffset := image.header.structOffset + UInt32.ofNat entrySize
      stringsOffset := image.header.stringsOffset + UInt32.ofNat entrySize }
    bytes := image.bytes.overwrite place entry.encode }

/-! ## Properties -/

def internName (name : Bytes) : InPlace UInt32 := do
  match Strings.find? (← get).strings name with
  | some offset => return UInt32.ofNat offset
  | none => appendName name

/-- Give a property that is there room for another value. -/
def openValue (old : Located) (value : Bytes) : InPlace Nat := do
  spliceStruct (old.offset + Token.propertyHead) (Bytes.alignUp old.value.length)
    (Bytes.alignUp value.length)
  return old.offset

/-- Insert a property whose value is still to be written. -/
def openProperty (node : NodeRef) (name value : Bytes) : InPlace Nat := do
  let image ← get
  let nameSize := if (Strings.find? image.strings name).isSome then 0 else name.length + 1
  let needed := Token.propertyHead + Bytes.alignUp value.length + nameSize
  if image.free < needed then throw (.noSpace needed)
  let nameOffset ← internName name
  let offset ← ask (·.propertiesEnd node)
  spliceStruct offset 0 (Token.propertyHead + Bytes.alignUp value.length)
  modify (·.writeStruct offset (Bytes.word 3))
  modify (·.writeStruct (offset + 8) (Bytes.word nameOffset))
  return offset

def setValue (node : NodeRef) (name value : Bytes) : InPlace Unit := do
  let offset ←
    match ← ask (·.property? node name) with
    | some old => openValue old value
    | none => openProperty node name value
  modify (·.writeStruct (offset + 4) (Bytes.word (UInt32.ofNat value.length)))
  modify (·.writeStruct (offset + Token.propertyHead) (Bytes.padded value))

/-! ## Nodes -/

def addChild (parent : NodeRef) (name : Bytes) : InPlace NodeRef := do
  unless Tree.isNodeName name do throw .badName
  if (← ask (·.namesake? parent name)).isSome then throw .alreadyExists
  let offset ← ask (·.propertiesEnd parent)
  let size := 8 + Bytes.alignUp (name.length + 1)
  spliceStruct offset 0 size
  modify (·.writeStruct offset (Bytes.zeros size))
  modify (·.writeStruct offset (Bytes.word 1))
  modify (·.writeStruct (offset + 4) name)
  modify (·.writeStruct (offset + (size - 4)) (Bytes.word 2))
  return ⟨offset⟩

end Image

/-! ## Edits as data -/

inductive Command where
  | grow (increment : Nat)
  | reserve (entry : Reservation)
  | setValue (node : NodeRef) (name value : Bytes)
  | setCell (node : NodeRef) (name : Bytes) (cell : UInt32)
  | setDoubleCell (node : NodeRef) (name : Bytes) (cell : UInt64)
  | setCells (node : NodeRef) (name : Bytes) (cells : List UInt32)
  | setText (node : NodeRef) (name text : Bytes)
  | addChild (parent : NodeRef) (name : Bytes)
  deriving DecidableEq, Repr

namespace Command

def run : Command → Edit Unit
  | grow increment => Tree.grow increment
  | reserve entry => Tree.reserve entry
  | setValue node name value => Tree.setValue node name value
  | setCell node name cell => Tree.setCell node name cell
  | setDoubleCell node name cell => Tree.setDoubleCell node name cell
  | setCells node name cells => Tree.setCells node name cells
  | setText node name text => Tree.setText node name text
  | addChild parent name => discard (Tree.addChild parent name)

def runInPlace : Command → InPlace Unit
  | grow increment => Image.grow increment
  | reserve entry => Image.reserve entry
  | setValue node name value => Image.setValue node name value
  | setCell node name cell => Image.setValue node name (Bytes.word cell)
  | setDoubleCell node name cell => Image.setValue node name (Bytes.doubleWord cell)
  | setCells node name cells => Image.setValue node name (Cells.encode cells)
  | setText node name text => Image.setValue node name (text ++ [0])
  | addChild parent name => discard (Image.addChild parent name)

/-- A reservation that is all zero would end the block for readers and hide all later ones. -/
def KeepsTerminator : Command → Prop
  | reserve entry => entry ≠ Reservation.terminator
  | _ => True

end Command

end BootTree
