import BootTree.Tree.Basic

/-!
# BootTree.Tree.Walk

Finding nodes in the structure block. A node is named by where it begins; such a position is good as
long as nothing in front of it changes, and every use of it checks that a node begins there.

* `Tree.root` — the first node of the block.
* `Tree.next` — the node after another one in document order, as long as the walk stays inside the
  subtree in which the depth started at zero.
* `Tree.walkFrom` — all nodes that repeated `next` reaches, and the error that ended the walk early,
  if one did. Every search for a node is a search in such a walk (`Walk.find?`).
* `Tree.nodeName` — the name of a node.
-/

namespace BootTree

open Blob

structure NodeRef where
  offset : Nat
  deriving DecidableEq, Repr

namespace Tree

/-! ## Entering a node -/

/-- The name of the node that begins at a position, and the offset behind that name. -/
def enter (tree : Tree) (node : NodeRef) : Except TreeError (Bytes × Nat) :=
  match Token.read? (tree.structBlock.drop node.offset) with
  | some (.beginNode name) => .ok (name, node.offset + (Token.beginNode name).size)
  | _ => .error (.badOffset node.offset)

theorem lt_of_enter {tree : Tree} {node : NodeRef} {name : Bytes} {offset : Nat}
    (h : tree.enter node = .ok (name, offset)) :
    node.offset < offset ∧ offset ≤ tree.structBlock.length := by
  unfold enter at h
  split at h
  · rename_i hread
    cases h
    have h₁ := Token.size_le_of_read? hread
    have h₂ := Token.four_le_size (.beginNode name)
    rw [List.length_drop] at h₁
    omega
  · cases h

def nodeName (tree : Tree) (node : NodeRef) : Except TreeError Bytes := do
  let (name, _) ← tree.enter node
  if Bytes.isText name then return name else throw (.badStructure (node.offset + 4))

def nameText (tree : Tree) (node : NodeRef) : String :=
  match tree.nodeName node with
  | .ok name => (Bytes.text? name).getD "<unnamed>"
  | .error _ => "<unnamed>"

def firstNode (offset : Nat) (tokens : Bytes) : Except TreeError NodeRef :=
  match _h : Token.read? tokens with
  | some .nop => firstNode (offset + Token.nop.size) (tokens.drop Token.nop.size)
  | some (.beginNode _) => .ok ⟨offset⟩
  | _ => .error (.badStructure offset)
termination_by tokens.length
decreasing_by exact Token.length_drop_lt_of_read? _h

def root (tree : Tree) : Except TreeError NodeRef := firstNode 0 tree.structBlock

/-! ## Document order -/

/-- The first node that begins in tokens starting at `offset`, with its depth. Ends of nodes lower
the depth, and the search is over when it would fall below zero or at the end of the block. -/
def nextFrom (offset : Nat) (tokens : Bytes) (depth : Int) :
    Except TreeError (Option (NodeRef × Int)) :=
  match _h : Token.read? tokens with
  | none => .error (.badStructure offset)
  | some (.beginNode _) => .ok (some (⟨offset⟩, depth + 1))
  | some .finish => .ok none
  | some .endNode =>
    if depth ≤ 0 then .ok none
    else nextFrom (offset + Token.endNode.size) (tokens.drop Token.endNode.size) (depth - 1)
  | some .nop => nextFrom (offset + Token.nop.size) (tokens.drop Token.nop.size) depth
  | some (.property nameOffset value) =>
    let size := (Token.property nameOffset value).size
    nextFrom (offset + size) (tokens.drop size) depth
termination_by tokens.length
decreasing_by all_goals exact Token.length_drop_lt_of_read? _h

theorem bounds_of_nextFrom {offset : Nat} {tokens : Bytes} {depth : Int} {node : NodeRef} {d : Int}
    (h : nextFrom offset tokens depth = .ok (some (node, d))) :
    offset ≤ node.offset ∧ node.offset < offset + tokens.length := by
  have step {token : Token} {tokens : Bytes} {offset : Nat} (hread : Token.read? tokens = some token)
      (ih : offset + token.size ≤ node.offset ∧
        node.offset < offset + token.size + (tokens.drop token.size).length) :
      offset ≤ node.offset ∧ node.offset < offset + tokens.length := by
    have := Token.size_le_of_read? hread
    rw [List.length_drop] at ih
    omega
  fun_induction nextFrom offset tokens depth with
  | case1 | case3 | case4 => cases h
  | case2 offset tokens depth name hread =>
    cases h
    have := Token.size_le_of_read? hread
    have := Token.four_le_size (.beginNode name)
    exact ⟨Nat.le_refl _, by dsimp only; omega⟩
  | case5 offset tokens depth hread _ ih => exact step hread (ih h)
  | case6 offset tokens depth hread ih => exact step hread (ih h)
  | case7 offset tokens depth nameOffset value hread size ih => exact step hread (ih h)

/-- The node that follows `node` in document order, if `node` has the given depth. The walk is over
once it leaves the subtree in which the depth started at zero. -/
def next (tree : Tree) (node : NodeRef) (depth : Int) :
    Except TreeError (Option (NodeRef × Int)) :=
  match tree.enter node with
  | .error e => .error e
  | .ok (_, offset) => nextFrom offset (tree.structBlock.drop offset) depth

theorem bounds_of_next {tree : Tree} {node found : NodeRef} {depth d : Int}
    (h : tree.next node depth = .ok (some (found, d))) :
    node.offset < found.offset ∧ found.offset < tree.structBlock.length := by
  unfold next at h
  split at h
  · cases h
  · rename_i name offset henter
    have h₁ := lt_of_enter henter
    have h₂ := bounds_of_nextFrom h
    rw [List.length_drop] at h₂
    omega

/-- A depth from which no walk ever leaves: fewer nodes end in the block than it has bytes. -/
def anyDepth (tree : Tree) : Int := tree.structBlock.length

/-! ## Walks -/

/-- The nodes a walk meets, in order and with their depths, and the error that ended it early. -/
structure Walk where
  nodes : List (NodeRef × Int)
  failure : Option TreeError

namespace Walk

/-- The first node that is accepted. The error that ended the walk is only met if there is none. -/
def find? (walk : Walk) (accept : NodeRef → Int → Except TreeError Bool) :
    Except TreeError (Option (NodeRef × Int)) :=
  go walk.nodes
where
  go : List (NodeRef × Int) → Except TreeError (Option (NodeRef × Int))
    | [] =>
      match walk.failure with
      | none => .ok none
      | some e => .error e
    | (node, depth) :: rest =>
      match accept node depth with
      | .error e => .error e
      | .ok true => .ok (some (node, depth))
      | .ok false => go rest

/-- The walk that meets `node` first. -/
def prepend (node : NodeRef) (depth : Int) (walk : Walk) : Walk :=
  { walk with nodes := (node, depth) :: walk.nodes }

end Walk

/-- All nodes behind `node` that a walk starting there meets. -/
def walkFrom (tree : Tree) (node : NodeRef) (depth : Int) : Walk :=
  match _h : tree.next node depth with
  | .error e => ⟨[], some e⟩
  | .ok none => ⟨[], none⟩
  | .ok (some (found, d)) => (walkFrom tree found d).prepend found d
termination_by tree.structBlock.length - node.offset
decreasing_by
  have := bounds_of_next _h
  omega

def walkAll (tree : Tree) : Walk :=
  match tree.root with
  | .error e => ⟨[], some e⟩
  | .ok root => (tree.walkFrom root tree.anyDepth).prepend root tree.anyDepth

end Tree

end BootTree
