import BootTree.Tree.Property

/-!
# BootTree.Tree.Path

Nodes by name, by path and by what they are compatible with.

* `nameMatches` — a name without a unit address also means a node that has one.
* `Tree.child?`, `Tree.resolve` — the child of a node, and the node at the end of a path.
* `Tree.findCompatible` — the next node in document order that is compatible with something.
-/

namespace BootTree

def slash : UInt8 := 47

def atSign : UInt8 := 64

/-- Whether `wanted` means a node called `name`: it is the full name, or it has no unit address and
is the part of the name in front of one. -/
def nameMatches (name wanted : Bytes) : Bool :=
  name = wanted ||
    (!wanted.contains atSign && name.contains atSign && name.takeWhile (· ≠ atSign) = wanted)

namespace Tree

def child? (tree : Tree) (parent : NodeRef) (wanted : Bytes) : Except TreeError (Option NodeRef) :=
  (((tree.walkFrom parent 0).find? fun node depth =>
    if depth = 1 then (tree.nodeName node).map (nameMatches · wanted) else .ok false)).map
      (·.map Prod.fst)

/-- The node reached from `node` by taking a child for each component in turn. -/
def descend (tree : Tree) (node : NodeRef) : List Bytes → Except TreeError (Option NodeRef)
  | [] => .ok (some node)
  | component :: rest =>
    match tree.child? node component with
    | .error e => .error e
    | .ok none => .ok none
    | .ok (some child) => tree.descend child rest

/-- The components of a path; repeated, leading and trailing slashes separate nothing. -/
def components (path : Bytes) : List Bytes := (path.splitOn slash).filter (· ≠ [])

def resolve (tree : Tree) (path : Bytes) : Except TreeError (Option NodeRef) :=
  if path.head? ≠ some slash then .error .badName
  else
    match tree.root with
    | .error e => .error e
    | .ok root => tree.descend root (components path)

def walkBehind (tree : Tree) : Option NodeRef → Walk
  | none => tree.walkAll
  | some node => tree.walkFrom node tree.anyDepth

def findCompatible (tree : Tree) (start : Option NodeRef) (compatible : Bytes) :
    Except TreeError (Option NodeRef) :=
  ((tree.walkBehind start).find? fun node _ => .ok (tree.isCompatible node compatible)).map
    (·.map Prod.fst)

end Tree

end BootTree
