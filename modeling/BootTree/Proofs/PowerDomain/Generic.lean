import BootTree.Proofs.PowerDomain.Restrict

/-!
# BootTree.Proofs.PowerDomain.Generic

Which nodes the fixup disables in a tree with a provider of power domains. A node's list is gone
through from its beginning; an empty entry reads like the end of the list, so it ends the search
unless its channel is switched off.

* `PowerDomain.Policy.asks_generic_iff`: what is asked for on behalf of a list without malformed
  entries.
* `Tree.Stores.isEnabled_restrict_iff_list`: the nodes that are disabled.
* `Tree.isEnabled_listTree_behindEmpty`: one that is not, although the entry behind an empty one names
  a resource that is not owned.
-/

namespace BootTree

open PowerDomain

/-- In a list without malformed entries the search comes to an entry unless there is an empty one in
front of it whose channel is not switched off. -/
theorem PowerDomain.Policy.asks_generic_iff {doc : Document} {i : Nat} {cells : List UInt32}
    {entries : List (Option Reference)} {resource : Resource}
    (hcells : doc.cells i listProperty = .ok (some cells))
    (hentries : EntriesOf doc argumentRule cells entries []) :
    Policy.generic.Asks doc i resource ↔
      ∃ k node args, entries[k]? = some (some ⟨node, resource.id :: args⟩) ∧
        Edma.isMasked (doc.channelMask i) k = false ∧
        ∀ m < k, entries[m]? = some none → Edma.isMasked (doc.channelMask i) m = true := by
  simp only [Policy.Asks, Document.ListsResource, Document.ListsNothing,
    Document.hasEntry_iff hcells hentries]
  constructor
  · rintro ⟨k, ⟨node, args, hentry⟩, hmask, hbefore⟩
    refine ⟨k, node, args, hentry, hmask, ?_⟩
    intro m hm hempty
    by_contra hon
    exact hbefore m hm (Bool.not_eq_true _ ▸ hon) hempty
  · rintro ⟨k, node, args, hentry, hmask, hbefore⟩
    refine ⟨k, ⟨node, args, hentry⟩, hmask, ?_⟩
    intro m hm hon hempty
    rw [hbefore m hm hempty] at hon
    cases hon

namespace Tree.Stores

variable {tree : Tree} {doc : Document}

/-- **Lists of domains.** In a tree without a limit, a usable node below the root whose list has no
malformed entry is disabled exactly if the list names a resource that is not owned for a channel that
is not switched off, with no empty entry in front whose channel is not switched off either. -/
theorem isEnabled_restrict_iff_list (hdoc : tree.Stores doc) (hunlimited : tree.maxSize = none)
    (hsize : tree.totalSize < 2 ^ 32) {provider : Nat}
    (hprovider : doc.isCompatible provider genericCompatible = true) {owns : Ownership} {i : Nat}
    (hpos : 0 < i) (hi : i < doc.forest.size) (henabled : doc.isEnabled i = true)
    {cells : List UInt32} (hcells : doc.cells i listProperty = .ok (some cells))
    {entries : List (Option Reference)} (hentries : EntriesOf doc argumentRule cells entries []) :
    ∃ ref, (Fixup.result (PowerDomain.restrict owns) tree).2.nodes[i]? = some ref ∧
      ((Fixup.result (PowerDomain.restrict owns) tree).2.isEnabled ref = false ↔
        ∃ k node resource args, entries[k]? = some (some ⟨node, resource :: args⟩) ∧
          owns ⟨resource⟩ = false ∧
          (Edma.maskBits ≤ k ∨ Edma.isMasked (doc.channelMask i) k = false) ∧
          ∀ m < k, entries[m]? = some none → Edma.isMasked (doc.channelMask i) m = true) := by
  have hpolicy : doc.policy = .generic := Document.policy_eq_generic hprovider
  have hfails : ∀ k, ¬ doc.policy.Fails owns doc k := by
    rw [hpolicy]
    exact Policy.not_fails_generic owns doc
  obtain ⟨ref, href, hiff⟩ := hdoc.isEnabled_restrict hunlimited hsize hfails hi henabled
  refine ⟨ref, href, hiff.trans ?_⟩
  rw [hpolicy]
  constructor
  · intro hrestricts
    obtain ⟨resource, hasks, hunowned⟩ := hrestricts.asks
    obtain ⟨k, node, args, hentry, hmask, hbefore⟩ :=
      (Policy.asks_generic_iff hcells hentries).1 hasks
    exact ⟨k, node, resource.id, args, hentry, hunowned, .inr hmask, hbefore⟩
  · rintro ⟨k, node, resource, args, hentry, hunowned, hmask, hbefore⟩
    have hon : Edma.isMasked (doc.channelMask i) k = false := hmask.elim Edma.isMasked_of_le id
    have hasks : Policy.generic.Asks doc i ⟨resource⟩ :=
      (Policy.asks_generic_iff hcells hentries).2 ⟨k, node, args, hentry, hon, hbefore⟩
    exact ⟨hpos, hi, henabled, trivial, ⟨resource⟩, hasks, hunowned⟩

end Tree.Stores

/-! ## A list with an empty entry -/

namespace PowerDomain

/-- A provider of power domains and a controller whose first channel has no domain. -/
def listDocument (mask : UInt32) : Document where
  name := []
  properties := []
  children :=
    .node "power-controller" [⟨"compatible", StringList.join [genericCompatible]⟩,
      ⟨"#power-domain-cells", Cells.encode [1]⟩, ⟨"phandle", Cells.encode [1]⟩] .nil
    (.node "dma-controller@5d000000" [⟨listProperty, Cells.encode [0, 1, 188]⟩,
      ⟨"dma-channel-mask", Cells.encode [mask]⟩] .nil .nil)

def listTree (mask : UInt32) : Tree :=
  (listDocument mask).write (StringList.join ["compatible", "#power-domain-cells", "phandle",
    listProperty, "dma-channel-mask", "status"]) 0

theorem stores_listTree (mask : UInt32) : (listTree mask).Stores (listDocument mask) :=
  Document.stores_write (by decide) rfl 0

theorem entriesOf_listDocument (mask : UInt32) :
    EntriesOf (listDocument mask) argumentRule [0, 1, 188] [none, some ⟨1, [188]⟩] [] := by
  have hprovider := @EntriesOf.reference (listDocument mask) argumentRule 1 ⟨1, by decide, by decide⟩
    1 [188] [] [] [] rfl rfl rfl .nil
  exact .empty hprovider

theorem cells_listDocument (mask : UInt32) :
    (listDocument mask).cells 2 listProperty = .ok (some [0, 1, 188]) := rfl

theorem isCompatible_listDocument (mask : UInt32) :
    (listDocument mask).isCompatible 1 genericCompatible = true := rfl

end PowerDomain

namespace Tree

/-- With its first channel switched off the controller is disabled on behalf of the second one. -/
theorem isEnabled_listTree_behindMasked :
    ∃ ref, (Fixup.result (restrict ownsNothing) (listTree 1)).2.nodes[2]? = some ref ∧
      (Fixup.result (restrict ownsNothing) (listTree 1)).2.isEnabled ref = false := by
  obtain ⟨ref, href, hiff⟩ := @Stores.isEnabled_restrict_iff_list (listTree 1) (listDocument 1)
    (stores_listTree 1) rfl (by decide +kernel) 1 (isCompatible_listDocument 1) ownsNothing 2
    (by decide) (by decide) rfl _ (cells_listDocument 1) _ (entriesOf_listDocument 1)
  refine ⟨ref, href, hiff.2 ⟨1, 1, 188, [], rfl, rfl, .inr rfl, ?_⟩⟩
  intro m hm _
  obtain rfl : m = 0 := by omega
  rfl

/-- With all channels switched on it keeps its status: the search ends at the empty entry of the first
channel and never comes to the second one, whose resource is not owned. -/
theorem isEnabled_listTree_behindEmpty :
    (listTree 0).Stores (listDocument 0) ∧ (listTree 0).maxSize = none ∧
      (listTree 0).totalSize < 2 ^ 32 ∧
      (listDocument 0).isCompatible 1 genericCompatible = true ∧
      (listDocument 0).PhandlesAreCells ∧ 2 < (listDocument 0).forest.size ∧
      (listDocument 0).isEnabled 2 = true ∧
      (listDocument 0).cells 2 listProperty = .ok (some [0, 1, 188]) ∧
      EntriesOf (listDocument 0) argumentRule [0, 1, 188] [none, some ⟨1, [188]⟩] [] ∧
      ownsNothing ⟨188⟩ = false ∧ Edma.isMasked ((listDocument 0).channelMask 2) 1 = false ∧
      ∃ ref, (Fixup.result (restrict ownsNothing) (listTree 0)).2.nodes[2]? = some ref ∧
        (Fixup.result (restrict ownsNothing) (listTree 0)).2.isEnabled ref = true := by
  have hsize : (listTree 0).totalSize < 2 ^ 32 := by decide +kernel
  have hi : 2 < (listDocument 0).forest.size := by decide
  have henabled : (listDocument 0).isEnabled 2 = true := rfl
  have hpolicy : (listDocument 0).policy = .generic :=
    Document.policy_eq_generic (isCompatible_listDocument 0)
  have hfails : ∀ k, ¬ (listDocument 0).policy.Fails ownsNothing (listDocument 0) k := by
    rw [hpolicy]
    exact Policy.not_fails_generic ownsNothing (listDocument 0)
  obtain ⟨ref, href, hiff⟩ := (stores_listTree 0).isEnabled_restrict rfl hsize hfails hi henabled
  refine ⟨stores_listTree 0, rfl, hsize, isCompatible_listDocument 0, by decide, hi, henabled,
    cells_listDocument 0, entriesOf_listDocument 0, rfl, rfl, ref, href, ?_⟩
  rw [← Bool.not_eq_false, hiff, hpolicy]
  intro hrestricts
  obtain ⟨resource, hasks, -⟩ := hrestricts.asks
  obtain ⟨k, node, args, hentry, -, hbefore⟩ :=
    (Policy.asks_generic_iff (cells_listDocument 0) (entriesOf_listDocument 0)).1 hasks
  cases k with
  | zero => cases hentry
  | succ k =>
    have hmasked := hbefore 0 (Nat.succ_pos k) rfl
    revert hmasked
    decide

end Tree

end BootTree
