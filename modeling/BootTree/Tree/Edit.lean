import BootTree.Tree.Path

/-!
# BootTree.Tree.Edit

Changing a tree. Every edit works within the free space it finds and fails if that is too little;
only `Tree.grow` adds free space.

* `Edit` — an edit: a result or an error, and the tree it leaves behind in either case.
* `Tree.grow`, `Tree.reserve` — more free space; one more memory reservation.
* `Tree.setValue` — create or replace a property.
* `Tree.addChild` — insert an empty node as the first child of another.

An edit of a node leaves the position of that node and of everything in front of it alone.
-/

namespace BootTree

open Blob

/-- An edit of a tree: what it answers, and the tree afterwards, also when it fails. -/
abbrev Edit := EStateM TreeError Tree

namespace Edit

def ask {α : Type} (query : Tree → Except TreeError α) : Edit α := fun tree =>
  match query tree with
  | .ok a => .ok a tree
  | .error e => .error e tree

end Edit

namespace Tree

def grow (increment : Nat) : Edit Unit := fun tree =>
  let size := tree.totalSize + increment
  let grown := { tree with free := tree.free + increment }
  match tree.maxSize with
  | none => .ok () grown
  | some limit => if limit < size then .error (.sizeLimit size limit) tree else .ok () grown

def reserve (entry : Reservation) : Edit Unit := fun tree =>
  if tree.free < entrySize then .error (.noSpace entrySize) tree
  else
    .ok () { tree with reservations := tree.reservations ++ [entry], free := tree.free - entrySize }

/-- Replace the `old` bytes at `offset` of the structure block. Everything behind them moves. -/
def spliceStruct (offset old : Nat) (new : Bytes) : Edit Unit := fun tree =>
  if old + tree.free < new.length then .error (.noSpace (new.length - old)) tree
  else
    .ok () { tree with
      structBlock := Bytes.splice tree.structBlock offset old new
      free := old + tree.free - new.length }

def appendName (name : Bytes) : Edit UInt32 := fun tree =>
  if tree.free < name.length + 1 then .error (.noSpace (name.length + 1)) tree
  else
    .ok (UInt32.ofNat tree.strings.length) { tree with
      strings := Strings.append tree.strings name
      free := tree.free - (name.length + 1) }

/-! ## Properties -/

def internName (name : Bytes) : Edit UInt32 := do
  match Strings.find? (← get).strings name with
  | some offset => return UInt32.ofNat offset
  | none => appendName name

/-- Append a property to those of a node. The space for it and for its name is checked first, so
that nothing changes if there is too little. -/
def appendProperty (node : NodeRef) (name value : Bytes) : Edit Unit := do
  let tree ← get
  let nameSize := if (Strings.find? tree.strings name).isSome then 0 else name.length + 1
  let needed := Token.propertyHead + Bytes.alignUp value.length + nameSize
  if tree.free < needed then throw (.noSpace needed)
  let nameOffset ← internName name
  let offset ← Edit.ask (·.propertiesEnd node)
  spliceStruct offset 0 (Token.property nameOffset value).encode

/-- Create or replace a property. All nodes behind `node` move. -/
def setValue (node : NodeRef) (name value : Bytes) : Edit Unit := do
  match ← Edit.ask (·.property? node name) with
  | some old => spliceStruct old.offset old.token.size (Token.property old.nameOffset value).encode
  | none => appendProperty node name value

def setCell (node : NodeRef) (name : Bytes) (cell : UInt32) : Edit Unit :=
  setValue node name (Bytes.word cell)

def setDoubleCell (node : NodeRef) (name : Bytes) (cell : UInt64) : Edit Unit :=
  setValue node name (Bytes.doubleWord cell)

def setCells (node : NodeRef) (name : Bytes) (cells : List UInt32) : Edit Unit :=
  setValue node name (Cells.encode cells)

def setText (node : NodeRef) (name text : Bytes) : Edit Unit :=
  setValue node name (text ++ [0])

/-! ## Nodes -/

def isNodeName (name : Bytes) : Bool := name ≠ [] && !name.contains slash && !name.contains 0

def namesake? (tree : Tree) (parent : NodeRef) (name : Bytes) : Except TreeError (Option NodeRef) :=
  ((tree.walkFrom parent 0).find? fun node depth =>
    if depth = 1 then (tree.nodeName node).map fun found => decide (found = name)
    else .ok false).map (·.map Prod.fst)

def emptyNode (name : Bytes) : Bytes := (Token.beginNode name).encode ++ Token.endNode.encode

/-- Insert an empty node as the first child of `parent`. -/
def addChild (parent : NodeRef) (name : Bytes) : Edit NodeRef := do
  unless isNodeName name do throw .badName
  if (← Edit.ask (·.namesake? parent name)).isSome then throw .alreadyExists
  let offset ← Edit.ask (·.propertiesEnd parent)
  spliceStruct offset 0 (emptyNode name)
  return ⟨offset⟩

end Tree

end BootTree
