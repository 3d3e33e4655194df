import BootTree.Document.Grammar
import BootTree.Tree.Path

/-!
# BootTree.Document.Place

Nodes of a document by their number in document order, the root being number zero, and where the
node of a number begins in a block that stores the document.

* `Document.node?`, `Document.properties?`: the node of a number, and its properties.
* `Document.alter`: other properties and other children for the node of a number; everything else
  stays.
* `Document.find?`: the number of the node that a path leads to.
* `begins`, `Tree.nodes`: where nodes begin, in document order.
-/

namespace BootTree

open Blob

/-- A node with everything inside it. -/
structure Node where
  name : Bytes
  properties : List Property
  children : Forest

namespace Forest

def node? : Forest → Nat → Option Node
  | nil, _ => none
  | node name properties children _, 0 => some ⟨name, properties, children⟩
  | node _ _ children next, i + 1 =>
    if i < children.size then children.node? i else next.node? (i - children.size)

/-- Change the properties and the children of the node of a number. -/
def alter (p : List Property → List Property) (c : Forest → Forest) : Forest → Nat → Forest
  | nil, _ => nil
  | node name properties children next, 0 => node name (p properties) (c children) next
  | node name properties children next, i + 1 =>
    if i < children.size then node name properties (children.alter p c i) next
    else node name properties children (next.alter p c (i - children.size))

/-- The first of some siblings that `wanted` means: the number of nodes in front of it, and its
children. -/
def child? (wanted : Bytes) : Forest → Option (Nat × Forest)
  | nil => none
  | node name _ children next =>
    if nameMatches name wanted then some (0, children)
    else (next.child? wanted).map fun found => (children.size + 1 + found.1, found.2)

/-- The number of the node that some path components lead to, from the node `start` whose children
are these. -/
def descend (start : Nat) : Forest → List Bytes → Option Nat
  | _, [] => some start
  | children, component :: rest =>
    match children.child? component with
    | none => none
    | some (skipped, inner) => inner.descend (start + 1 + skipped) rest

def bare : Forest → Forest
  | nil => nil
  | node name _ children next => node name [] children.bare next.bare

end Forest

namespace Document

def forest (doc : Document) : Forest := .node doc.name doc.properties doc.children .nil

def node? (doc : Document) (i : Nat) : Option Node := doc.forest.node? i

def properties? (doc : Document) (i : Nat) : Option (List Property) :=
  (doc.node? i).map Node.properties

def alter (p : List Property → List Property) (c : Forest → Forest) (doc : Document) :
    Nat → Document
  | 0 => ⟨doc.name, p doc.properties, c doc.children⟩
  | i + 1 => ⟨doc.name, doc.properties, doc.children.alter p c i⟩

/-- The number of the node at the end of an absolute path. -/
def find? (doc : Document) (path : Bytes) : Option Nat :=
  if path.head? = some slash then doc.children.descend 0 (Tree.components path) else none

end Document

/-! ## Where nodes begin -/

/-- The places at which nodes begin among tokens that start at `offset`. -/
def begins (offset : Nat) : List Token → List NodeRef
  | [] => []
  | .beginNode name :: ts => ⟨offset⟩ :: begins (offset + (Token.beginNode name).size) ts
  | t :: ts => begins (offset + t.size) ts

def Tree.nodes (tree : Tree) : List NodeRef := begins 0 ((tokens? tree.structBlock).getD [])

/-! ## Numbers and places under a change -/

namespace Forest

theorem node?_isSome_iff {f : Forest} {i : Nat} : (f.node? i).isSome ↔ i < f.size := by
  induction f generalizing i with
  | nil => simp [node?, size]
  | node name properties children next ihc ihn =>
    cases i with
    | zero => simp [node?, size]
    | succ i =>
      rw [node?, size]
      split
      · rename_i h
        rw [ihc]
        omega
      · rename_i h
        rw [ihn]
        omega

@[simp] theorem bare_alter (p : List Property → List Property) (f : Forest) (i : Nat) :
    (f.alter p id i).bare = f.bare := by
  induction f generalizing i with
  | nil => rfl
  | node name properties children next ihc ihn =>
    cases i with
    | zero => rfl
    | succ i =>
      rw [alter]
      split
      · rw [bare, ihc, bare]
      · rw [bare, ihn, bare]

@[simp] theorem size_bare (f : Forest) : f.bare.size = f.size := by
  induction f with
  | nil => rfl
  | node name properties children next ihc ihn => simp [bare, size, ihc, ihn]

theorem size_alter (p : List Property → List Property) (f : Forest) (i : Nat) :
    (f.alter p id i).size = f.size := by
  rw [← size_bare, bare_alter, size_bare]

theorem outline_bare (f : Forest) (depth : Nat) : f.bare.outline depth = f.outline depth := by
  induction f generalizing depth with
  | nil => rfl
  | node name properties children next ihc ihn => simp [bare, outline, ihc, ihn]

theorem outline_alter (p : List Property → List Property) (f : Forest) (i depth : Nat) :
    (f.alter p id i).outline depth = f.outline depth := by
  rw [← outline_bare, bare_alter, outline_bare]

theorem child?_bare (wanted : Bytes) (f : Forest) :
    f.bare.child? wanted = (f.child? wanted).map fun found => (found.1, found.2.bare) := by
  induction f with
  | nil => rfl
  | node name properties children next ihc ihn =>
    rw [bare, child?, child?]
    split
    · rfl
    · rw [ihn, Option.map_map, Option.map_map, size_bare]; rfl

theorem descend_bare (start : Nat) (f : Forest) (path : List Bytes) :
    f.bare.descend start path = f.descend start path := by
  induction path generalizing start f with
  | nil => simp only [descend]
  | cons component rest ih =>
    rw [descend, descend, child?_bare]
    cases f.child? component with
    | none => rfl
    | some found => exact ih _ _

theorem descend_alter (p : List Property → List Property) (f : Forest) (i start : Nat)
    (path : List Bytes) : (f.alter p id i).descend start path = f.descend start path := by
  rw [← descend_bare, bare_alter, descend_bare]

theorem properties_alter (p : List Property → List Property) (f : Forest) (i j : Nat) :
    ((f.alter p id i).node? j).map Node.properties =
      if i = j then ((f.node? j).map Node.properties).map p
      else (f.node? j).map Node.properties := by
  induction f generalizing i j with
  | nil => simp [alter, node?]
  | node name properties children next ihc ihn =>
    cases i with
    | zero =>
      cases j with
      | zero => simp [alter, node?]
      | succ j => simp [alter, node?]
    | succ i =>
      cases j with
      | zero =>
        rw [alter]
        split <;> simp [node?]
      | succ j =>
        rw [alter, node?]
        split
        · rename_i hi
          rw [node?, size_alter]
          split
          · rw [ihc]; simp
          · rename_i hj
            rw [if_neg (by omega)]
        · rename_i hi
          rw [node?]
          split
          · rename_i hj
            rw [if_neg (by omega)]
          · rename_i hj
            rw [ihn]
            by_cases hij : i = j
            · rw [if_pos (by omega), if_pos (by omega)]
            · rw [if_neg (by omega), if_neg (by omega)]

theorem alter_id (f : Forest) (i : Nat) : f.alter id id i = f := by
  induction f generalizing i with
  | nil => rfl
  | node name properties children next ihc ihn =>
    cases i with
    | zero => rfl
    | succ i =>
      rw [alter]
      split
      · rw [ihc]
      · rw [ihn]

theorem alter_alter (p q : List Property → List Property) (f : Forest) (i : Nat) :
    (f.alter p id i).alter q id i = f.alter (fun properties => q (p properties)) id i := by
  induction f generalizing i with
  | nil => rfl
  | node name properties children next ihc ihn =>
    cases i with
    | zero => rfl
    | succ i =>
      by_cases hi : i < children.size
      · simp only [alter, if_pos hi, size_alter, ihc]
      · simp only [alter, if_neg hi, ihn]

theorem alter_congr {p q : List Property → List Property} {f : Forest} {i : Nat}
    (h : ∀ node, f.node? i = some node → p node.properties = q node.properties) :
    f.alter p id i = f.alter q id i := by
  induction f generalizing i with
  | nil => rfl
  | node name properties children next ihc ihn =>
    cases i with
    | zero =>
      have hhere := h _ rfl
      dsimp only at hhere
      rw [alter, alter, hhere]
    | succ i =>
      rw [node?] at h
      by_cases hi : i < children.size
      · rw [if_pos hi] at h
        rw [alter, alter, if_pos hi, if_pos hi, ihc h]
      · rw [if_neg hi] at h
        rw [alter, alter, if_neg hi, if_neg hi, ihn h]

end Forest

namespace Document

theorem alter_id (doc : Document) (i : Nat) : doc.alter id id i = doc := by
  cases i with
  | zero => rfl
  | succ i => rw [alter, Forest.alter_id]

theorem alter_alter (p q : List Property → List Property) (doc : Document) (i : Nat) :
    (doc.alter p id i).alter q id i = doc.alter (fun properties => q (p properties)) id i := by
  cases i with
  | zero => rfl
  | succ i => simp only [alter, Forest.alter_alter]

theorem alter_congr {p q : List Property → List Property} {doc : Document} {i : Nat}
    {properties : List Property} (hi : doc.properties? i = some properties)
    (h : p properties = q properties) : doc.alter p id i = doc.alter q id i := by
  obtain ⟨node, hnode, hproperties⟩ := Option.map_eq_some_iff.1 hi
  cases i with
  | zero =>
    rw [node?, forest, Forest.node?, Option.some.injEq] at hnode
    rw [← hnode] at hproperties
    dsimp only at hproperties
    rw [alter, alter, hproperties, h]
  | succ i =>
    rw [alter, alter, Forest.alter_congr]
    intro child hchild
    have hlt : i < doc.children.size := Forest.node?_isSome_iff.1 (by
      rw [hchild]
      rfl)
    rw [node?, forest, Forest.node?, if_pos hlt, hchild, Option.some.injEq] at hnode
    rw [hnode, hproperties, h]

theorem alter_eq_self {p : List Property → List Property} {doc : Document} {i : Nat}
    {properties : List Property} (hi : doc.properties? i = some properties)
    (h : p properties = properties) : doc.alter p id i = doc := by
  rw [alter_congr hi (show p properties = id properties from h), alter_id]

theorem forest_alter (p : List Property → List Property) (c : Forest → Forest) (doc : Document)
    (i : Nat) (h : i < doc.forest.size) : (doc.alter p c i).forest = doc.forest.alter p c i := by
  cases i with
  | zero => rfl
  | succ i =>
    have hi : i < doc.children.size := by simp only [forest, Forest.size] at h; omega
    simp only [alter, forest, Forest.alter, if_pos hi]

theorem properties?_alter (p : List Property → List Property) (doc : Document) (i j : Nat)
    (h : i < doc.forest.size) :
    (doc.alter p id i).properties? j =
      if i = j then (doc.properties? j).map p else doc.properties? j := by
  simp only [properties?, node?, forest_alter p id doc i h, Forest.properties_alter]

theorem outline_alter (p : List Property → List Property) (doc : Document) (i : Nat) :
    (doc.alter p id i).outline = doc.outline := by
  cases i with
  | zero => rfl
  | succ i => simp only [outline, alter, Forest.outline_alter]

theorem find?_alter (p : List Property → List Property) (doc : Document) (i : Nat)
    (path : Bytes) : (doc.alter p id i).find? path = doc.find? path := by
  cases i with
  | zero => rfl
  | succ i => simp only [find?, alter, Forest.descend_alter]

end Document

end BootTree
