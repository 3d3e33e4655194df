import BootTree.Proofs.Document.Kept
import BootTree.Proofs.Fixup.Growth
import BootTree.Proofs.Image.Atomic

/-!
# BootTree.Proofs.Tree.AddChild

Adding a child to a node of a stored document. The new tokens stand where the properties of the
parent end, so the new child is the parent's first one and has the number behind it.

* `Tree.Added`: a tree after a child was added.
* `Tree.StoredAt.added`: adding a child, if it succeeds.
* `Edit.Atomic.result_withGrowth`: an edit with a second try changes nothing, or does what it does
  with some free space; `Edit.Costs.result_withGrowth`: when it succeeds for certain.
* `Tree.Stores.result_childOrAdd`: the child of a node, found or added.
-/

namespace BootTree

open Blob

namespace Tree

/-- A tree with a new child of the node with number `i`. -/
structure Added (tree tree' : Tree) (doc : Document) (i : Nat) (ref : NodeRef) (name : Bytes)
    (child : NodeRef) : Prop where
  stores : tree'.Stores (doc.withChild i name)
  atParent : tree'.nodes[i]? = some ref
  atChild : tree'.nodes[i + 1]? = some child
  strings : tree'.strings = tree.strings
  reservations : tree'.reservations = tree.reservations

theorem tokens?_emptyNode {name : Bytes} (h : 0 ∉ name) :
    tokens? (emptyNode name) = some [.beginNode name, .endNode] :=
  tokens?_append (tokens?_encode_singleton (t := .beginNode name) h)
    (tokens?_encode_singleton (t := .endNode) trivial)

theorem not_mem_of_isNodeName {name : Bytes} (h : isNodeName name = true) : 0 ∉ name := by
  simp only [isNodeName, Bool.and_eq_true, Bool.not_eq_true', List.contains_eq_mem,
    decide_eq_false_iff_not] at h
  exact h.2

namespace StoredAt

variable {tree tree' : Tree} {doc : Document} {i : Nat} {ref child : NodeRef} {node : Node}
  {pre body inner post : List Token} {name : Bytes}

/-- The tokens with an empty first child for the node. -/
theorem tokens?_spliced (h : tree.StoredAt doc i ref node pre body inner post) (hname : 0 ∉ name) :
    tokens? (Bytes.splice tree.structBlock (width (pre ++ .beginNode node.name :: body)) 0
      (emptyNode name)) =
        some (around pre node.name body (.beginNode name :: ([] ++ [] ++ .endNode :: inner)) post) := by
  have hold : tokens? tree.structBlock = some (pre ++ .beginNode node.name :: body ++ [] ++
      (inner ++ .endNode :: post)) := by
    rw [h.tokens]
    simp [around]
  have hnew := tokens?_splice hold (tokens?_emptyNode hname)
  rw [width_nil] at hnew
  rw [hnew]
  simp [around]

theorem nodes_spliced (h : tree.StoredAt doc i ref node pre body inner post) (hname : 0 ∉ name) :
    (tree.spliced (width (pre ++ .beginNode node.name :: body)) 0 (emptyNode name)).nodes =
      begins 0 pre ++ ⟨width pre⟩ :: begins (width (pre ++ .beginNode node.name :: body))
        (.beginNode name :: ([] ++ [] ++ .endNode :: inner) ++ .endNode :: post) := by
  rw [nodes, spliced, h.tokens?_spliced hname, Option.getD_some, begins_around h.cut.bodyOf]

theorem added_spliced (h : tree.StoredAt doc i ref node pre body inner post) (hname : 0 ∉ name)
    (htext : Bytes.isText name = true) :
    Added tree (tree.spliced (width (pre ++ .beginNode node.name :: body)) 0 (emptyNode name)) doc i
      ref name ⟨width (pre ++ .beginNode node.name :: body)⟩ := by
  have hinner : SiblingsOf tree.strings (.beginNode name :: ([] ++ [] ++ .endNode :: inner))
      (.node name [] .nil node.children) := .node htext .nil .nil h.cut.innerOf
  refine ⟨⟨_, h.tokens?_spliced hname, ?_⟩, ?_, ?_, rfl, rfl⟩
  · exact h.cut.alter (p := id) (fun _ _ hfound => hfound) h.cut.bodyOf hinner
  · rw [h.nodes_spliced hname, List.getElem?_append_right (Nat.le_of_eq h.cut.index), h.cut.index,
      Nat.sub_self, h.place]
    rfl
  · rw [h.nodes_spliced hname, List.getElem?_append_right (by rw [h.cut.index]; omega), h.cut.index,
      Nat.add_sub_cancel_left]
    rfl

/-- Adding a child, if it succeeds. -/
theorem added (h : tree.StoredAt doc i ref node pre body inner post)
    (htext : Bytes.isText name = true) (hadd : addChild ref name tree = .ok child tree') :
    Added tree tree' doc i ref name child := by
  rw [addChild_eq, h.propertiesEnd] at hadd
  split at hadd
  · rename_i hname
    split at hadd
    · cases hadd
    · cases hadd
    · dsimp only at hadd
      split at hadd
      · cases hadd
      · cases hadd
        exact h.added_spliced (not_mem_of_isNodeName hname) htext
  · cases hadd

end StoredAt

end Tree

/-! ## With growth -/

/-- Nothing but the free space changes, or the edit succeeds with some free space. -/
theorem Edit.Atomic.result_withGrowth {α : Type} {e : Edit α} (h : e.Atomic) (tree : Tree) :
    (∃ err free, (withGrowth e).result tree = (.error err, tree.withFree free)) ∨
      ∃ a free tree', e (tree.withFree free) = .ok a tree' ∧
        (withGrowth e).result tree = (.ok a, tree') := by
  cases hfirst : e tree with
  | ok a tree' => exact .inr ⟨a, tree.free, tree', hfirst, result_withGrowth_of_ok hfirst⟩
  | error err after =>
    obtain rfl := (h tree err after hfirst).1
    by_cases hspace : ∃ needed, err = .noSpace needed
    · obtain ⟨needed, rfl⟩ := hspace
      rw [result_withGrowth_of_noSpace hfirst]
      rcases after.grow_cases growIncrement with ⟨limit, hlimit⟩ | hgrown
      · rw [hlimit]
        exact .inl ⟨limit, after.free, rfl⟩
      · rw [hgrown]
        dsimp only
        cases hsecond : e (after.withFree (after.free + growIncrement)) with
        | ok a tree' => exact .inr ⟨a, _, tree', hsecond, Fixup.result_edit_of_ok hsecond⟩
        | error err left =>
          obtain rfl := (h _ err left hsecond).1
          exact .inl ⟨err, _, Fixup.result_edit_of_error hsecond⟩
    · exact .inl ⟨err, after.free, result_withGrowth_of_error (not_exists.1 hspace) hfirst⟩

/-- In a tree without a limit an edit succeeds that takes no more than one growth. -/
theorem Edit.Costs.result_withGrowth {α : Type} {e : Edit α} {tree changed : Tree} {old new : Nat}
    {a : α} (h : e.Costs tree old new a changed) (hunlimited : tree.maxSize = none)
    (hnew : new ≤ growIncrement) :
    ∃ free, (withGrowth e).result tree = (.ok a, changed.withFree free) := by
  have hfirst := h.eq
  split at hfirst
  · have hsecond := h.run (tree.free + growIncrement)
    rw [if_neg (by omega)] at hsecond
    rw [result_withGrowth_of_noSpace hfirst, Tree.grow_of_unlimited hunlimited]
    exact ⟨_, Fixup.result_edit_of_ok hsecond⟩
  · exact ⟨_, result_withGrowth_of_ok hfirst⟩

namespace Tree

variable {tree : Tree} {doc : Document} {i : Nat} {ref : NodeRef} {name : Bytes}

theorem Stores.withFree (h : tree.Stores doc) (free : Nat) : (tree.withFree free).Stores doc := h

/-- Nothing but the free space changes, or the child is there, or it is added. -/
theorem Stores.result_childOrAdd (h : tree.Stores doc) (href : tree.nodes[i]? = some ref)
    (htext : Bytes.isText name = true) :
    (∃ e free, (childOrAdd ref name).result tree = (.error e, tree.withFree free)) ∨
    (∃ child, (childOrAdd ref name).result tree = (.ok child, tree) ∧
      tree.child? ref name = .ok (some child)) ∨
    ∃ child tree', (childOrAdd ref name).result tree = (.ok child, tree') ∧
      Added tree tree' doc i ref name child := by
  obtain ⟨node, pre, body, inner, post, hat⟩ := h.exists_storedAt href
  have hchild := hat.child? h name
  unfold childOrAdd
  cases hfound : (node.children.child? name).bind fun found => tree.nodes[i + 1 + found.1]? with
  | some child =>
    rw [hfound] at hchild
    right; left
    refine ⟨child, ?_, hchild⟩
    rw [Attempt.result_bind_of_ok (a := some child) (by rw [Attempt.result_ask, hchild])]
    rfl
  | none =>
    rw [hfound] at hchild
    rw [Attempt.result_bind_of_ok (a := none) (by rw [Attempt.result_ask, hchild])]
    dsimp only
    rcases (atomic_addChild ref name).result_withGrowth tree with
      ⟨e, free, hresult⟩ | ⟨child, free, tree', hadd, hresult⟩
    · exact .inl ⟨e, free, hresult⟩
    · have hadded := (hat.withFree free).added htext hadd
      exact .inr (.inr ⟨child, tree', hresult, hadded.stores, hadded.atParent,
        hadded.atChild, hadded.strings, hadded.reservations⟩)

end Tree

end BootTree
