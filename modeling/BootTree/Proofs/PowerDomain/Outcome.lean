import BootTree.Proofs.PowerDomain.Legacy

/-!
# BootTree.Proofs.PowerDomain.Outcome

Whether the fixup of power domains comes to its end. Most malformed values cost a node its check and
leave a line in the log. A malformed phandle does more: a search for some other phandle ends in an
error when it meets one, and under the legacy policy that error ends the fixup, with all nodes behind
unchecked.

* `Tree.result_apply`: the fixup comes to its end exactly if it fails at no node, and then every node
  at which the walk stops is logged, checked and disabled on its own account only.
* `Tree.result_apply_thermalTree`: a fixup that ends early.
-/

namespace BootTree

open PowerDomain

theorem PowerDomain.Policy.not_fails {policy : Policy} {doc : Document}
    (h : policy = .generic ∨ doc.PhandlesAreCells) (owns : Ownership) (i : Nat) :
    ¬ policy.Fails owns doc i := by
  cases policy with
  | generic => exact Policy.not_fails_generic owns doc i
  | legacy =>
    rcases h with hgeneric | hphandles
    · cases hgeneric
    · exact hphandles.not_fails_legacy owns i

/-- The fixup fails at nodes only: there is no chain of domains where there is no node. -/
theorem PowerDomain.Policy.Fails.lt_size {policy : Policy} {owns : Ownership} {doc : Document}
    {i : Nat} (h : policy.Fails owns doc i) : i < doc.forest.size := by
  by_contra hle
  obtain ⟨e, he⟩ := h.failure
  cases policy with
  | generic => cases he
  | legacy =>
    have hvalue := Document.value?_of_size_le (Nat.le_of_not_lt hle) listProperty
    rw [Document.value?] at hvalue
    rw [Policy.failure?, Document.chain, maxChain, Document.chainFrom, Document.domain?,
      Document.cell, readAs, hvalue] at he
    cases he

namespace Tree

variable {tree : Tree} {doc : Document}

/-- **Malformed values.** Under either policy, and whoever owns what, the fixup comes to its end
exactly if there is no node at which it fails; there is none under the generic policy, and none if all
phandles are single cells. If it comes to its end, then every node below the root at which the walk
stops has been visited, with a line in the log for what is malformed there, and every node is disabled
if a resource of its own is not owned, unless a limit of the tree refuses that, and otherwise keeps its
status. -/
theorem result_apply (hdoc : tree.Stores doc) (hsize : tree.totalSize < 2 ^ 32) (policy : Policy)
    (owns : Ownership) :
    (((apply policy owns).result tree).1 = .ok () ↔
      ∀ i, 0 < i → ¬ policy.Fails owns doc i) ∧
    (policy = .generic ∨ doc.PhandlesAreCells → ((apply policy owns).result tree).1 = .ok ()) ∧
    (((apply policy owns).result tree).1 = .ok () → ∀ i, 0 < i → i < doc.forest.size →
      (policy.StopsAt doc i → policy.Told owns doc i ((apply policy owns).events tree)) ∧
      ∃ ref, ((apply policy owns).result tree).2.nodes[i]? = some ref ∧
        (policy.Restricts owns doc i →
          ((apply policy owns).result tree).2.isEnabled ref = false ∨
            ((apply policy owns).result tree).2.Refuses (doc.propertiesAt i) "status"
              disabledStatus) ∧
        (¬ policy.Restricts owns doc i →
          ((apply policy owns).result tree).2.isEnabled ref = doc.isEnabled i)) := by
  obtain ⟨outcome, tree', nodes, stop, hresult, hprogress, houtcome, htold⟩ :=
    (Holds.ofStores hdoc hsize (by decide)).apply policy owns
  rw [hresult]
  dsimp only
  have hok : outcome = .ok () ↔ ∀ i, 0 < i → ¬ policy.Fails owns doc i := by
    rcases houtcome with ⟨rfl, hall⟩ | ⟨⟨e, rfl⟩, hfails⟩
    · constructor
      · intro _ i hpos hfails
        exact hprogress.unfailed i (Nat.lt_of_lt_of_le hfails.lt_size hall) hpos hfails
      · intro _
        rfl
    · constructor
      · intro herror
        cases herror
      · intro hnone
        exact absurd hfails (hnone stop hprogress.pos)
  refine ⟨hok, fun hgood => hok.2 fun i _ => Policy.not_fails hgood owns i, ?_⟩
  intro hend i hpos hi
  have hall : doc.forest.size ≤ stop := by
    rcases houtcome with ⟨-, hall⟩ | ⟨⟨e, rfl⟩, -⟩
    · exact hall
    · cases hend
  have histop : i < stop := Nat.lt_of_lt_of_le hi hall
  refine ⟨htold i hpos (Nat.le_of_lt histop) hi, ?_⟩
  have hlt : i < tree'.nodes.length := by
    rwa [hprogress.holds.stores.length_nodes, hprogress.sameButStatus.size]
  have href := List.getElem?_eq_getElem hlt
  refine ⟨_, href, ?_, ?_⟩
  · intro hrestricts
    rcases hprogress.complete i histop hrestricts with hmem | hrefuses
    · left
      rw [hprogress.isEnabled_eq href, decide_eq_false (not_not_intro hmem), Bool.and_false]
    · exact .inr hrefuses
  · intro hnot
    have hmem : i ∉ nodes := fun hmem => hnot (hprogress.sound i hmem).2
    rw [hprogress.isEnabled_eq href, decide_eq_true hmem, Bool.and_true]

end Tree

/-! ## A malformed phandle behind the devices -/

namespace PowerDomain

/-- A power domain, a graphics unit whose domain does not exist, a serial port in the domain, and a
thermal sensor whose phandle is two bytes long. -/
def thermalDocument : Document where
  name := []
  properties := []
  children :=
    .node "PD_DMA" [⟨"reg", Cells.encode [57]⟩, ⟨"phandle", Cells.encode [1]⟩] .nil
    (.node "gpu@53100000" [⟨listProperty, Cells.encode [9]⟩] .nil
    (.node "serial@5a060000" [⟨listProperty, Cells.encode [1]⟩] .nil
    (.node "thermal" [⟨"phandle", [0, 2]⟩] .nil .nil)))

def thermalTree : Tree :=
  thermalDocument.write (StringList.join ["reg", "phandle", listProperty, "status"]) 0

theorem stores_thermalTree : thermalTree.Stores thermalDocument :=
  Document.stores_write (by decide) rfl 0

theorem totalSize_thermalTree : thermalTree.totalSize < 2 ^ 32 := by decide +kernel

end PowerDomain

namespace Tree

/-- Under the generic policy the fixup goes through the whole tree. -/
theorem result_apply_thermalTree_generic :
    ((apply .generic ownsNothing).result thermalTree).1 = .ok () :=
  (result_apply stores_thermalTree totalSize_thermalTree .generic ownsNothing).2.1 (.inl rfl)

/-- Under the legacy policy it ends at the graphics unit: looking for the domain that does not exist
comes to the phandle of the sensor. The serial port behind stays enabled, although its domain is not
owned and neither of the two nodes refers to the sensor. -/
theorem result_apply_thermalTree_legacy :
    thermalTree.Stores thermalDocument ∧ thermalTree.totalSize < 2 ^ 32 ∧
      ((apply .legacy ownsNothing).result thermalTree).1 ≠ .ok () ∧
      Policy.legacy.Restricts ownsNothing thermalDocument 3 ∧ thermalTree.maxSize = none ∧
      ∃ ref, ((apply .legacy ownsNothing).result thermalTree).2.nodes[3]? = some ref ∧
        ((apply .legacy ownsNothing).result thermalTree).2.isEnabled ref = true := by
  have htop : ∀ top ≤ 3, ¬ thermalDocument.DomainTop top := by decide
  have hstops : ∀ i ≤ 3, Policy.legacy.StopsAt thermalDocument i := by
    rintro i hi ⟨top, hdomain, hle, -⟩
    exact htop top (Nat.le_trans hle hi) hdomain
  have hchain : thermalDocument.chain 2 = ⟨[], some (.badValue 2)⟩ := by rfl
  have hfails : Policy.legacy.Fails ownsNothing thermalDocument 2 := by
    refine ⟨by decide, hstops 2 (by decide), ?_, .badValue 2, by rw [Policy.failure?, hchain]⟩
    intro resource hasks
    rw [Policy.Asks, hchain] at hasks
    cases hasks
  have hrestricts : Policy.legacy.Restricts ownsNothing thermalDocument 3 := by
    refine ⟨by decide, by decide, by decide, hstops 3 (by decide), ⟨57⟩, ?_, rfl⟩
    have hchain : thermalDocument.chain 3 = ⟨[⟨57⟩], none⟩ := by rfl
    rw [Policy.Asks, hchain]
    exact List.mem_cons_self
  obtain ⟨outcome, tree', nodes, stop, hresult, hprogress, houtcome, -⟩ :=
    (Holds.ofStores stores_thermalTree totalSize_thermalTree (by decide)).apply .legacy ownsNothing
  have hstop : stop ≤ 2 := by
    by_contra hlt
    exact hprogress.unfailed 2 (by omega) (by decide) hfails
  refine ⟨stores_thermalTree, totalSize_thermalTree, ?_, hrestricts, rfl, ?_⟩
  · rw [hresult]
    rcases houtcome with ⟨rfl, hall⟩ | ⟨⟨e, rfl⟩, -⟩
    · have hsize : thermalDocument.forest.size = 5 := by rfl
      omega
    · simp
  · have hlt : 3 < tree'.nodes.length := by
      rw [hprogress.holds.stores.length_nodes, hprogress.sameButStatus.size]
      decide
    have href := List.getElem?_eq_getElem hlt
    have hmem : 3 ∉ nodes := by
      intro hmem
      have := (hprogress.sound 3 hmem).1
      omega
    rw [hresult]
    refine ⟨_, href, ?_⟩
    rw [hprogress.isEnabled_eq href, decide_eq_true hmem, Bool.and_true]
    decide

end Tree

end BootTree
