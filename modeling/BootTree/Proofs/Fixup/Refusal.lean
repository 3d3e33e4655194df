import BootTree.Proofs.Fixup.Growth
import BootTree.Proofs.Image.Moving

/-!
# BootTree.Proofs.Fixup.Refusal

Writes that a limit of the tree's size does not let happen. A refused write leaves the tree as it is.
It stays refused when other values of the same property are set: the tree cannot grow any more, a
value that replaces a shorter one only takes space away, and where a new property still fits, with its
name if that is new, the refused value fits as well.

* `Tree.writeCost`: the free space that a value takes, said of the properties of its node.
* `Tree.Refuses`: a tree that cannot take a value.
* `Tree.StoredAt.result_setGrowing_of_refuses`, `Tree.StoredAt.exists_written`: a short value is
  refused, or it is set and all that was refused stays refused.
-/

namespace BootTree

open Blob

namespace Tree

/-- The free space that a value takes among the properties of a node. -/
def writeCost (tree : Tree) (properties : List Property) (name value : Bytes) : Nat :=
  match valueOf? properties name with
  | some old => propertyCost value - propertyCost old
  | none => propertyCost value + tree.nameCost name

/-- The tree has a limit that does not allow another growth. -/
def Full (tree : Tree) : Prop :=
  ∃ limit, tree.maxSize = some limit ∧ limit < tree.totalSize + growIncrement

/-- The tree lacks the space for a value and cannot get it. -/
structure Refuses (tree : Tree) (properties : List Property) (name value : Bytes) : Prop where
  lacks : tree.free < tree.writeCost properties name value
  full : tree.Full

variable {tree tree' : Tree} {doc : Document} {i : Nat} {ref : NodeRef} {node : Node}
  {pre body inner post : List Token} {name value old : Bytes} {properties : List Property}

theorem size_property (nameOffset : UInt32) (value : Bytes) :
    (Token.property nameOffset value).size = propertyCost value := by
  rw [Token.size, propertyCost, Bytes.alignUp_add rfl]

theorem writeCost_of_strings (h : tree'.strings = tree.strings) (properties : List Property)
    (name value : Bytes) :
    tree'.writeCost properties name value = tree.writeCost properties name value := by
  rw [writeCost, writeCost, nameCost, nameCost, h]

/-- No value of a property takes more space than one in a node that lacks the property. -/
theorem writeCost_le_of_missing {others : List Property} (h : valueOf? others name = none) :
    tree.writeCost properties name value ≤ tree.writeCost others name value := by
  have hmissing : tree.writeCost others name value = propertyCost value + tree.nameCost name := by
    rw [writeCost, h]
  rw [hmissing, writeCost]
  split <;> omega

theorem full_iff : tree.Full ↔ ¬ tree.MayGrow growIncrement := by
  simp only [Full, MayGrow, not_forall, Nat.not_le, exists_prop]

theorem grow_of_full (h : tree.Full) :
    ∃ e, grow growIncrement tree = .error e tree := by
  obtain ⟨limit, -, -, hgrow⟩ := grow_of_not_mayGrow (full_iff.1 h)
  exact ⟨_, hgrow⟩

theorem grow_of_not_full (h : ¬ tree.Full) :
    grow growIncrement tree = .ok () (tree.withFree (tree.free + growIncrement)) :=
  grow_of_mayGrow (not_not.1 (mt full_iff.2 h))

namespace StoredAt

theorem setCost_eq (h : tree.StoredAt doc i ref node pre body inner post) (name value : Bytes) :
    tree.setCost ref name value = tree.writeCost node.properties name value := by
  rw [setCost, writeCost]
  cases hold : valueOf? node.properties name with
  | none =>
    rcases h.property?_cases name with ⟨hnone, -⟩ | ⟨_, _, _, _, ps₁, ps₂, -, hps, -⟩
    · rw [hnone]
    · rw [valueOf?_eq_none_iff, hps] at hold
      exact absurd rfl (hold _ (List.mem_append_right ps₁ List.mem_cons_self))
  | some old =>
    obtain ⟨_, _, _, -, -, hsome⟩ := h.property?_of_valueOf? hold
    rw [hsome]
    dsimp only [Located.token]
    rw [size_property]

/-- A value that is refused is not set, and nothing else happens. -/
theorem result_setGrowing_of_refuses (h : tree.StoredAt doc i ref node pre body inner post)
    (hrefuses : tree.Refuses node.properties name value) :
    ∃ e, (setGrowing ref name value).result tree = (.error e, tree) := by
  have hlt : tree.free < tree.setCost ref name value := by
    rw [h.setCost_eq]
    exact hrefuses.lacks
  obtain ⟨e, hgrow⟩ := grow_of_full hrefuses.full
  refine ⟨e, ?_⟩
  rw [setGrowing, result_withGrowth_of_noSpace (h.setValue_of_lt hlt), hgrow]

/-- A longer value takes space away and changes nothing else that a later write depends on. -/
theorem setValue_of_longer (h : tree.StoredAt doc i ref node pre body inner post)
    (hold : valueOf? node.properties name = some old)
    (hlonger : propertyCost old ≤ propertyCost value)
    (hset : setValue ref name value tree = .ok () tree') :
    tree'.free ≤ tree.free ∧ tree'.strings = tree.strings ∧ tree'.maxSize = tree.maxSize ∧
      tree'.totalSize = tree.totalSize := by
  obtain ⟨front, o, behind, rfl, -, hsome⟩ := h.property?_of_valueOf? hold
  rw [setValue_eq, hsome] at hset
  dsimp only at hset
  rw [spliceStruct_eq] at hset
  split at hset
  · cases hset
  · rename_i hroom
    rw [EStateM.Result.ok.injEq] at hset
    obtain ⟨-, rfl⟩ := hset
    have hin : width (pre ++ .beginNode node.name :: front) + (Token.property o old).size ≤
        tree.structBlock.length := by
      rw [length_of_tokens? h.tokens]
      simp only [around, width_append, width_cons]
      omega
    refine ⟨?_, rfl, rfl, totalSize_spliced hin (Nat.le_of_not_lt hroom)⟩
    change (Token.property o old).size + tree.free - (Token.property o value).encode.length ≤ _
    rw [length_property_encode, size_property]
    omega

/-- A short value that is not refused is set. What was refused under the same name stays refused if
the value replaces none that takes more space. -/
theorem exists_written (h : tree.StoredAt doc i ref node pre body inner post) (hname : 0 ∉ name)
    (hoffset : tree.nameOffset name < 2 ^ 32)
    (hcost : propertyCost value + (name.length + 1) ≤ growIncrement)
    (hlonger : ∀ old, valueOf? node.properties name = some old →
      propertyCost old ≤ propertyCost value)
    (hnot : ¬ tree.Refuses node.properties name value) :
    ∃ tree', (setGrowing ref name value).result tree = (.ok (), tree') ∧
      Updated tree tree' doc i ref name (withValue name value) ∧
      ∀ properties, tree.Refuses properties name value → tree'.Refuses properties name value := by
  have hvalue := length_lt_of_propertyCost_le hcost
  by_cases hfree : tree.setCost ref name value ≤ tree.free
  · obtain ⟨tree', hset, hupdated⟩ := h.setValue_of_le hname hvalue hoffset hfree
    refine ⟨tree', result_withGrowth_of_ok hset, hupdated, ?_⟩
    intro properties hrefuses
    rw [h.setCost_eq] at hfree
    cases hold : valueOf? node.properties name with
    | none =>
      have hle := @writeCost_le_of_missing tree name value properties _ hold
      exact absurd hrefuses.lacks (by omega)
    | some old =>
      obtain ⟨hless, hstrings, hmaxSize, htotal⟩ := h.setValue_of_longer hold (hlonger old hold) hset
      obtain ⟨limit, hlimit, hlarge⟩ := hrefuses.full
      refine ⟨?_, limit, hmaxSize.trans hlimit, by rwa [htotal]⟩
      rw [writeCost_of_strings hstrings]
      exact Nat.lt_of_le_of_lt hless hrefuses.lacks
  · -- one growth gives the space, so the tree is not full
    have hlt := Nat.lt_of_not_le hfree
    have hnotFull : ¬ tree.Full := by
      intro hfull
      rw [h.setCost_eq] at hlt
      exact hnot ⟨hlt, hfull⟩
    have hagain := h.withFree (tree.free + growIncrement)
    have henough : tree.setCost ref name value ≤ tree.free + growIncrement := by
      have hle := tree.setCost_le ref name value
      omega
    obtain ⟨tree', hset, hupdated⟩ := hagain.setValue_of_le hname hvalue hoffset henough
    refine ⟨tree', ?_, hupdated.ofFree, ?_⟩
    · rw [setGrowing, result_withGrowth_of_noSpace (h.setValue_of_lt hlt),
        grow_of_not_full hnotFull]
      exact Fixup.result_edit_of_ok hset
    · intro properties hrefuses
      exact absurd hrefuses.full hnotFull

end StoredAt

end Tree

end BootTree
