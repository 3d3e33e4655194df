import BootTree.Bytes

/-!
# BootTree.Document.Basic

What a device tree says, apart from how it is stored: named nodes with properties in order, and
nodes inside nodes.

* `Forest` — sibling nodes in order, each with its properties and its children.
* `Document` — the root node.
* `Forest.outline`, `Document.outline` — the names of all nodes in document order, with depths.
-/

namespace BootTree

structure Property where
  name : Bytes
  value : Bytes
  deriving DecidableEq, Repr

/-- Sibling nodes in order. -/
inductive Forest where
  | nil
  | node (name : Bytes) (properties : List Property) (children next : Forest)
  deriving DecidableEq, Repr

namespace Forest

/-- The names of all nodes in document order, with depths; the siblings themselves have `depth`. -/
def outline (depth : Nat) : Forest → List (Bytes × Nat)
  | nil => []
  | node name _ children next =>
    (name, depth) :: (children.outline (depth + 1) ++ next.outline depth)

def size : Forest → Nat
  | nil => 0
  | node _ _ children next => children.size + next.size + 1

@[simp] theorem length_outline (f : Forest) (depth : Nat) : (f.outline depth).length = f.size := by
  induction f generalizing depth with
  | nil => rfl
  | node name properties children next ihc ihn => simp [outline, size, ihc, ihn]

end Forest

/-- A device tree without its representation. -/
structure Document where
  name : Bytes
  properties : List Property
  children : Forest
  deriving DecidableEq, Repr

namespace Document

def outline (doc : Document) : List (Bytes × Nat) := (doc.name, 0) :: doc.children.outline 1

end Document

def valueOf? (properties : List Property) (name : Bytes) : Option Bytes :=
  (properties.find? (·.name = name)).map Property.value

/-- The properties with the first one called `name` replaced, or with a new last one. -/
def withValue (name value : Bytes) : List Property → List Property
  | [] => [⟨name, value⟩]
  | p :: rest => if p.name = name then ⟨name, value⟩ :: rest else p :: withValue name value rest

theorem valueOf?_withValue (properties : List Property) (name value : Bytes) :
    valueOf? (withValue name value properties) name = some value := by
  induction properties with
  | nil => simp [withValue, valueOf?]
  | cons p rest ih =>
    simp only [withValue]
    split
    · simp [valueOf?]
    · rename_i h
      simpa [valueOf?, h] using ih

theorem valueOf?_withValue_of_ne {name other : Bytes} (h : other ≠ name) (value : Bytes)
    (properties : List Property) :
    valueOf? (withValue name value properties) other = valueOf? properties other := by
  induction properties with
  | nil => simp [withValue, valueOf?, h.symm]
  | cons p rest ih =>
    simp only [withValue]
    split
    · rename_i hp
      simp [valueOf?, hp, h.symm]
    · by_cases ho : p.name = other
      · simp [valueOf?, ho]
      · simpa [valueOf?, ho] using ih

end BootTree
