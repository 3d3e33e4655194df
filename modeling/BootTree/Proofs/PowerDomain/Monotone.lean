import BootTree.Proofs.PowerDomain.Restrict

/-!
# BootTree.Proofs.PowerDomain.Monotone

The fixup of power domains for two partitions, one of which owns only what the other one owns too. The
two runs look at different resources and disable different nodes, and each of them may end early. But a
search that fails has met nothing that is not owned, so the run of the partition that owns less fails
only where the other one would have failed as well: it goes at least as far, and disables at least as
many nodes.

* `PowerDomain.Policy.Restricts.mono`, `PowerDomain.Policy.Fails.mono`: one node for two partitions.
* `PowerDomain.Progress.subset`: what two runs have disabled.
* `Tree.exists_subset_restrict`: the two documents, and the nodes that are left enabled.
-/

namespace BootTree

open PowerDomain

/-- A partition owns only what another one owns too. -/
def Ownership.Within (fewer more : Ownership) : Prop :=
  ∀ resource, fewer resource = true → more resource = true

namespace PowerDomain

variable {policy : Policy} {more fewer : Ownership} {doc : Document} {i : Nat}

/-- A node that is to be disabled still is if its partition owns less. -/
theorem Policy.Restricts.mono (hwithin : fewer.Within more) (h : policy.Restricts more doc i) :
    policy.Restricts fewer doc i := by
  obtain ⟨resource, hasks, hunowned⟩ := h.asks
  refine ⟨h.pos, h.lt_size, h.isEnabled, h.stopsAt, resource, hasks, ?_⟩
  by_contra howned
  rw [Bool.not_eq_false] at howned
  rw [hwithin resource howned] at hunowned
  cases hunowned

/-- Where the fixup fails it would fail for a partition that owns more: nothing that is asked for is
in the way. -/
theorem Policy.Fails.mono (hwithin : fewer.Within more) (h : policy.Fails fewer doc i) :
    policy.Fails more doc i :=
  ⟨h.isEnabled, h.stopsAt, fun resource hasks => hwithin resource (h.owned resource hasks), h.failure⟩

theorem Progress.exists_ref {original tree : Tree} {nodes : List Nat} {stop : Nat} {owns : Ownership}
    (h : Progress policy owns doc original tree nodes stop) (hi : i < doc.forest.size) :
    ∃ ref, tree.nodes[i]? = some ref := by
  rw [← h.sameButStatus.size, ← h.holds.stores.length_nodes] at hi
  exact ⟨_, List.getElem?_eq_getElem hi⟩

/-- The run of the partition that owns less comes at least as far, so it has disabled what the other
one has. -/
theorem Progress.subset {tree tree₁ tree₂ : Tree} {nodes₁ nodes₂ : List Nat} {stop₁ stop₂ : Nat}
    (hwithin : fewer.Within more) (hunlimited : tree.maxSize = none)
    (h₁ : Progress policy more doc tree tree₁ nodes₁ stop₁)
    (h₂ : Progress policy fewer doc tree tree₂ nodes₂ stop₂)
    (hstop₂ : doc.forest.size ≤ stop₂ ∨ policy.Fails fewer doc stop₂) : nodes₁ ⊆ nodes₂ := by
  intro k hk
  obtain ⟨hlt, hrestricts⟩ := h₁.sound k hk
  have hreached : k < stop₂ := by
    rcases hstop₂ with hall | hfails
    · exact Nat.lt_of_lt_of_le hrestricts.lt_size hall
    · have hle : stop₁ ≤ stop₂ :=
        Nat.le_of_not_lt fun hbefore => h₁.unfailed stop₂ hbefore h₂.pos (hfails.mono hwithin)
      exact Nat.lt_of_lt_of_le hlt hle
  exact h₂.mem_of_restricts hunlimited hreached (hrestricts.mono hwithin)

end PowerDomain

namespace Tree

/-- **Owning less never leaves more devices enabled.** In a tree without a limit, the nodes that the
fixup disables for a partition are disabled as well for one that owns less, whichever policy the tree
is under and wherever the two runs end; and what the latter leaves enabled is enabled for the former. -/
theorem exists_subset_restrict {tree : Tree} {doc : Document} (hdoc : tree.Stores doc)
    (hunlimited : tree.maxSize = none) (hsize : tree.totalSize < 2 ^ 32) {more fewer : Ownership}
    (hwithin : fewer.Within more) :
    ∃ disabled disabled' : List Nat,
      (∀ doc', (Fixup.result (restrict more) tree).2.Stores doc' ↔ doc' = doc.disable disabled) ∧
      (∀ doc', (Fixup.result (restrict fewer) tree).2.Stores doc' ↔ doc' = doc.disable disabled') ∧
      disabled ⊆ disabled' ∧
      ∀ i < doc.forest.size, ∃ ref ref',
        (Fixup.result (restrict more) tree).2.nodes[i]? = some ref ∧
        (Fixup.result (restrict fewer) tree).2.nodes[i]? = some ref' ∧
        ((Fixup.result (restrict fewer) tree).2.isEnabled ref' = true →
          (Fixup.result (restrict more) tree).2.isEnabled ref = true) := by
  obtain ⟨nodes, stop, hprogress, -⟩ := hdoc.restrict hsize more
  obtain ⟨nodes', stop', hprogress', hstop'⟩ := hdoc.restrict hsize fewer
  have hsubset := hprogress.subset hwithin hunlimited hprogress' hstop'
  refine ⟨nodes, nodes', hprogress.holds.stores.stores_iff, hprogress'.holds.stores.stores_iff, hsubset, ?_⟩
  intro i hi
  obtain ⟨ref, href⟩ := hprogress.exists_ref hi
  obtain ⟨ref', href'⟩ := hprogress'.exists_ref hi
  refine ⟨ref, ref', href, href', ?_⟩
  rw [hprogress.isEnabled_eq href, hprogress'.isEnabled_eq href', Bool.and_eq_true, Bool.and_eq_true,
    decide_eq_true_eq, decide_eq_true_eq]
  rintro ⟨henabled, hnot⟩
  exact ⟨henabled, fun hmem => hnot (hsubset hmem)⟩

end Tree

/-! ## Two partitions that stop at different nodes -/

namespace PowerDomain

/-- Two devices in front of the power domains, each in one of them. The domain of the first refers to
a domain that does not exist, and the sensor at the end has a phandle of two bytes. -/
def partedDocument : Document where
  name := []
  properties := []
  children :=
    .node "serial@5a060000" [⟨listProperty, Cells.encode [1]⟩] .nil
    (.node "gpu@53100000" [⟨listProperty, Cells.encode [2]⟩] .nil
    (.node "PD_DMA" [⟨"reg", Cells.encode [57]⟩, ⟨"phandle", Cells.encode [1]⟩,
      ⟨listProperty, Cells.encode [9]⟩] .nil
    (.node "PD_GPU" [⟨"reg", Cells.encode [58]⟩, ⟨"phandle", Cells.encode [2]⟩] .nil
    (.node "thermal" [⟨"phandle", [0, 2]⟩] .nil .nil))))

def partedTree : Tree :=
  partedDocument.write (StringList.join ["reg", "phandle", listProperty, "status"]) 0

theorem stores_partedTree : partedTree.Stores partedDocument :=
  Document.stores_write (by decide) rfl 0

theorem totalSize_partedTree : partedTree.totalSize < 2 ^ 32 := by decide +kernel

def ownsDma : Ownership := fun resource => resource = ⟨57⟩

end PowerDomain

/-- A partition that owns one of the domains, and one that owns nothing. The first run fails at the
first device, on the way to the domain that does not exist; the second one disables both devices. -/
theorem Tree.restrict_partedTree :
    ownsNothing.Within ownsDma ∧
      (∀ doc', (Fixup.result (restrict ownsDma) partedTree).2.Stores doc' ↔
        doc' = partedDocument) ∧
      (∀ doc', (Fixup.result (restrict ownsNothing) partedTree).2.Stores doc' ↔
        doc' = partedDocument.disable [1, 2]) ∧
      (Fixup.result (restrict ownsDma) partedTree).2.nodes.map
        (Fixup.result (restrict ownsDma) partedTree).2.isEnabled =
          [true, true, true, true, true, true] ∧
      (Fixup.result (restrict ownsNothing) partedTree).2.nodes.map
        (Fixup.result (restrict ownsNothing) partedTree).2.isEnabled =
          [true, false, false, true, true, true] := by
  have hwithin : ownsNothing.Within ownsDma := fun _ hnothing => by cases hnothing
  obtain ⟨disabled, disabled', hmore, hfewer, -, -⟩ :=
    Tree.exists_subset_restrict stores_partedTree rfl totalSize_partedTree hwithin
  have hrun : (Fixup.result (restrict ownsDma) partedTree).2 = partedTree := by decide +kernel
  have hrun' : (Fixup.result (restrict ownsNothing) partedTree).2 =
      (partedDocument.disable [1, 2]).write
        (StringList.join ["reg", "phandle", listProperty, "status"]) 464 := by
    decide +kernel
  have hsame : partedDocument = partedDocument.disable disabled := by
    rw [← hmore, hrun]
    exact stores_partedTree
  have hsame' : partedDocument.disable [1, 2] = partedDocument.disable disabled' := by
    rw [← hfewer, hrun']
    exact Document.stores_write (by decide) rfl 464
  rw [← hsame] at hmore
  rw [← hsame'] at hfewer
  exact ⟨hwithin, hmore, hfewer, by decide +kernel, by decide +kernel⟩

end BootTree
