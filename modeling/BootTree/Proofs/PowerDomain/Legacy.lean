import BootTree.Proofs.PowerDomain.Restrict

/-!
# BootTree.Proofs.PowerDomain.Legacy

Which nodes the fixup disables in a tree that describes power domains by chains of nodes. Where every
phandle is a single cell no chain ends in an error, so the fixup goes through the whole tree; but the
walk leaves out more than domain trees: it goes on behind a domain tree at the next node directly
below the root, and all that stands deeper up to there is passed over.

* `Document.PhandlesAreCells.failure_chainFrom`: chains without errors.
* `Tree.Stores.isEnabled_restrict_iff_chain`: the nodes that are disabled.
* `Tree.isEnabled_busTree_passedOver`: one that is not, although a domain of its is not owned.
-/

namespace BootTree

open PowerDomain

namespace Document.PhandlesAreCells

variable {doc : Document}

theorem domain?_isOk (h : doc.PhandlesAreCells) (i : Nat) :
    ∃ domain, doc.domain? i = .ok domain := by
  rw [domain?]
  cases doc.cell i listProperty with
  | error e => exact ⟨none, rfl⟩
  | ok target =>
    cases target with
    | none => exact ⟨none, rfl⟩
    | some target =>
      obtain ⟨found, hfound⟩ := h.findRaw target
      dsimp only
      rw [hfound]
      cases found with
      | none => exact ⟨none, rfl⟩
      | some domain =>
        cases hreg : doc.cell domain "reg" with
        | error e => exact ⟨none, by simp only [hreg]⟩
        | ok reg =>
          by_cases hresource : (⟨reg.getD 0⟩ : Resource) = Resource.unassigned
          · exact ⟨none, by simp only [hreg, if_pos hresource]⟩
          · exact ⟨some (domain, ⟨reg.getD 0⟩), by simp only [hreg, if_neg hresource]⟩

/-- Where every phandle is a single cell, no chain of domains is broken. -/
theorem failure_chainFrom (h : doc.PhandlesAreCells) (links i : Nat) :
    (doc.chainFrom links i).failure = none := by
  induction links generalizing i with
  | zero => rfl
  | succ links ih =>
    obtain ⟨domain, hdomain⟩ := h.domain?_isOk i
    rw [chainFrom, hdomain]
    cases domain with
    | none => rfl
    | some next =>
      obtain ⟨domain, resource⟩ := next
      dsimp only
      split
      · rfl
      · exact ih domain

theorem not_fails_legacy (h : doc.PhandlesAreCells) (owns : Ownership) (i : Nat) :
    ¬ Policy.legacy.Fails owns doc i := by
  intro hfails
  obtain ⟨e, he⟩ := hfails.failure
  rw [Policy.failure?, chain, h.failure_chainFrom] at he
  cases he

end Document.PhandlesAreCells

namespace Tree.Stores

variable {tree : Tree} {doc : Document}

/-- **Chains of domains.** In a tree without a limit, a usable node below the root is disabled exactly
if its chain of domains has a resource that is not owned, unless the node is passed over. -/
theorem isEnabled_restrict_iff_chain (hdoc : tree.Stores doc) (hunlimited : tree.maxSize = none)
    (hsize : tree.totalSize < 2 ^ 32)
    (hprovider : ∀ k, doc.isCompatible k genericCompatible = false)
    (hphandles : doc.PhandlesAreCells) {owns : Ownership} {i : Nat} (hpos : 0 < i)
    (hi : i < doc.forest.size) (henabled : doc.isEnabled i = true) :
    ∃ ref, (Fixup.result (PowerDomain.restrict owns) tree).2.nodes[i]? = some ref ∧
      ((Fixup.result (PowerDomain.restrict owns) tree).2.isEnabled ref = false ↔
        ¬ doc.PassedOver i ∧ ∃ resource ∈ (doc.chain i).resources, owns resource = false) := by
  have hpolicy : doc.policy = .legacy := Document.policy_eq_legacy_iff.2 hprovider
  have hfails : ∀ k, ¬ doc.policy.Fails owns doc k := by
    rw [hpolicy]
    exact hphandles.not_fails_legacy owns
  obtain ⟨ref, href, hiff⟩ := hdoc.isEnabled_restrict hunlimited hsize hfails hi henabled
  refine ⟨ref, href, hiff.trans ?_⟩
  rw [hpolicy]
  constructor
  · intro hrestricts
    exact ⟨hrestricts.stopsAt, hrestricts.asks⟩
  · rintro ⟨hstops, hasks⟩
    exact ⟨hpos, hi, henabled, hstops, hasks⟩

end Tree.Stores

namespace Tree

theorem not_isCompatible_busDocument (k : Nat) :
    busDocument.isCompatible k genericCompatible = false := by
  have hpolicy : busDocument.policy = .legacy := rfl
  exact Document.policy_eq_legacy_iff.1 hpolicy k

/-- The serial port in front of the domain tree is disabled. -/
theorem isEnabled_busTree_front :
    ∃ ref, (Fixup.result (restrict ownsNothing) busTree).2.nodes[2]? = some ref ∧
      (Fixup.result (restrict ownsNothing) busTree).2.isEnabled ref = false := by
  have hphandles : busDocument.PhandlesAreCells := by decide
  have hfront : ∀ top ≤ 2, ¬ busDocument.DomainTop top := by decide
  obtain ⟨ref, href, hiff⟩ := @Stores.isEnabled_restrict_iff_chain busTree busDocument stores_busTree
    rfl totalSize_busTree not_isCompatible_busDocument hphandles ownsNothing 2 (by decide)
    (by decide) (by decide)
  refine ⟨ref, href, hiff.2 ⟨?_, ⟨57⟩, ?_, rfl⟩⟩
  · rintro ⟨top, htop, hle, -⟩
    exact hfront top hle htop
  · decide

/-- The one behind it keeps its status, although it needs the same domain and is not part of the
domain tree: there is no node directly below the root between the two. -/
theorem isEnabled_busTree_passedOver :
    busTree.Stores busDocument ∧ busTree.maxSize = none ∧ busTree.totalSize < 2 ^ 32 ∧
      (∀ k, busDocument.isCompatible k genericCompatible = false) ∧
      busDocument.PhandlesAreCells ∧ 5 < busDocument.forest.size ∧
      busDocument.isEnabled 5 = true ∧ ¬ busDocument.InDomainTree 5 ∧
      (∃ resource ∈ (busDocument.chain 5).resources, ownsNothing resource = false) ∧
      ∃ ref, (Fixup.result (restrict ownsNothing) busTree).2.nodes[5]? = some ref ∧
        (Fixup.result (restrict ownsNothing) busTree).2.isEnabled ref = true := by
  have hphandles : busDocument.PhandlesAreCells := by decide
  have hi : 5 < busDocument.forest.size := by decide
  have henabled : busDocument.isEnabled 5 = true := by decide
  have htop : ∀ top ≤ 5, busDocument.DomainTop top → top = 3 := by decide
  have hdeep : ∀ j ≤ 5, 3 < j → ∀ depth ∈ busDocument.depth? j, 1 < depth := by decide
  have hfails : ∀ k, ¬ busDocument.policy.Fails ownsNothing busDocument k := by
    rw [Document.policy_eq_legacy_iff.2 not_isCompatible_busDocument]
    exact hphandles.not_fails_legacy ownsNothing
  obtain ⟨ref, href, hiff⟩ :=
    stores_busTree.isEnabled_restrict rfl totalSize_busTree hfails hi henabled
  refine ⟨stores_busTree, rfl, totalSize_busTree, not_isCompatible_busDocument, hphandles, hi,
    henabled, ?_, ⟨⟨57⟩, by decide, rfl⟩, ref, href, ?_⟩
  · rintro ⟨top, hdomain, rfl | hinside⟩
    · cases htop 5 (Nat.le_refl 5) hdomain
    · obtain ⟨node, hnode, hlt, hle⟩ := hinside
      obtain rfl := htop top (Nat.le_of_lt hlt) hdomain
      cases hnode
      exact absurd hle (by decide)
  · rw [← Bool.not_eq_false, hiff]
    intro hrestricts
    have hstops := hrestricts.stopsAt
    rw [Document.policy_eq_legacy_iff.2 not_isCompatible_busDocument] at hstops
    refine hstops ⟨3, by decide, by decide, ?_⟩
    intro j hlt hle depth hdepth
    exact hdeep j hle hlt depth hdepth

end Tree

end BootTree
