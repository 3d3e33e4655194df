import BootTree.Tree.Walk
import BootTree.Value.Cells
import BootTree.Value.StringList

/-!
# BootTree.Tree.Property

Reading the properties of a node. They stand between the node's name and its first child or its end,
with empty tokens allowed in between, and their names are looked up in the strings block.

* `Tree.property?` — the first property of a node with a given name, and where it is.
* `Tree.propertiesEnd` — the offset behind the last property, where new ones and new children go.
* `Tree.value` — the raw value; `cell`, `cells`, `text` and `stringCount` read it as a type and
  report its length if it is not of that type.
-/

namespace BootTree

open Blob

/-- A property of the structure block: where its token is and what it holds. -/
structure Located where
  offset : Nat
  nameOffset : UInt32
  value : Bytes
  deriving DecidableEq, Repr

def Located.token (p : Located) : Token := .property p.nameOffset p.value

namespace Tree

def propertyFrom (strings name : Bytes) (offset : Nat) (tokens : Bytes) :
    Except TreeError (Option Located) :=
  match _h : Token.read? tokens with
  | none => .error (.badStructure offset)
  | some (.property nameOffset value) =>
    match Strings.read strings nameOffset.toNat with
    | .error e => .error (.propertyName e)
    | .ok found =>
      if found = name then .ok (some ⟨offset, nameOffset, value⟩)
      else
        let size := (Token.property nameOffset value).size
        propertyFrom strings name (offset + size) (tokens.drop size)
  | some .nop =>
    propertyFrom strings name (offset + Token.nop.size) (tokens.drop Token.nop.size)
  | some _ => .ok none
termination_by tokens.length
decreasing_by all_goals exact Token.length_drop_lt_of_read? _h

def property? (tree : Tree) (node : NodeRef) (name : Bytes) : Except TreeError (Option Located) :=
  match tree.enter node with
  | .error e => .error e
  | .ok (_, offset) => propertyFrom tree.strings name offset (tree.structBlock.drop offset)

/-- The offset of the first token that is neither a property nor empty. -/
def propertiesEndFrom (offset : Nat) (tokens : Bytes) : Except TreeError Nat :=
  match _h : Token.read? tokens with
  | none => .error (.badStructure offset)
  | some (.property nameOffset value) =>
    let size := (Token.property nameOffset value).size
    propertiesEndFrom (offset + size) (tokens.drop size)
  | some .nop => propertiesEndFrom (offset + Token.nop.size) (tokens.drop Token.nop.size)
  | some _ => .ok offset
termination_by tokens.length
decreasing_by all_goals exact Token.length_drop_lt_of_read? _h

def propertiesEnd (tree : Tree) (node : NodeRef) : Except TreeError Nat :=
  match tree.enter node with
  | .error e => .error e
  | .ok (_, offset) => propertiesEndFrom offset (tree.structBlock.drop offset)

/-! ## Values -/

def value (tree : Tree) (node : NodeRef) (name : Bytes) : Except TreeError (Option Bytes) :=
  (tree.property? node name).map (·.map Located.value)

/-- Read a property as a type; the value may not be of that type. -/
def valueAs {α : Type} (decode : Bytes → Except ValueError α) (tree : Tree) (node : NodeRef)
    (name : Bytes) : Except TreeError (Option α) :=
  match tree.value node name with
  | .error e => .error e
  | .ok none => .ok none
  | .ok (some raw) =>
    match decode raw with
    | .error _ => .error (.badValue raw.length)
    | .ok a => .ok (some a)

def singleCell (raw : Bytes) : Except ValueError UInt32 :=
  match Cells.decode raw with
  | .ok [cell] => .ok cell
  | _ => .error .partialCell

def cell (tree : Tree) (node : NodeRef) (name : Bytes) : Except TreeError (Option UInt32) :=
  tree.valueAs singleCell node name

def cells (tree : Tree) (node : NodeRef) (name : Bytes) : Except TreeError (Option (List UInt32)) :=
  tree.valueAs Cells.decode node name

def text (tree : Tree) (node : NodeRef) (name : Bytes) : Except TreeError (Option Bytes) :=
  tree.valueAs StringList.text node name

def stringCount (tree : Tree) (node : NodeRef) (name : Bytes) : Except TreeError (Option Nat) :=
  tree.valueAs StringList.count node name

/-! ## What properties say about a node -/

/-- Whether the node lists `compatible` among the things it is compatible with. A missing or
malformed list names nothing. -/
def isCompatible (tree : Tree) (node : NodeRef) (compatible : Bytes) : Bool :=
  match tree.value node "compatible" with
  | .ok (some list) => (StringList.texts list).contains compatible
  | _ => false

/-- Whether the node may be used. Without a status it may, with a malformed one it may not. -/
def isEnabled (tree : Tree) (node : NodeRef) : Bool :=
  match tree.text node "status" with
  | .ok none => true
  | .ok (some status) => status = Bytes.ofText "okay" || status = Bytes.ofText "ok"
  | .error _ => false

end Tree

end BootTree
