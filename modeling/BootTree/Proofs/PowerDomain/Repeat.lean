import BootTree.Proofs.PowerDomain.Restrict

/-!
# BootTree.Proofs.PowerDomain.Repeat

Running the fixup of power domains again. The second run meets the document that the first one left:
some nodes are disabled, and all that is asked for is as before. It stops at the same nodes, because
no top of a domain tree has been disabled, and fails where the first run did. A node that it would
disable was there for the first run, too, whose tree refused the write; so does the tree it left.

* `Document.passedOver_disable`: the same nodes are passed over.
* `PowerDomain.Policy.restricts_disable`, `PowerDomain.Policy.fails_disable`: which nodes are to be
  disabled in the second run, and where it fails.
* `PowerDomain.Progress.eq_nil`: it disables none.
* `Tree.restrict_restrict`: it leaves the tree as it is.
-/

namespace BootTree

open PowerDomain

/-! ## What is left to do -/

namespace Document

variable {doc : Document} {nodes : List Nat} {i : Nat}

theorem domainTop_disable (hlt : ∀ k ∈ nodes, k < doc.forest.size)
    (hnodes : ∀ k ∈ nodes, ¬ doc.PassedOver k) :
    (doc.disable nodes).DomainTop i ↔ doc.DomainTop i := by
  rw [DomainTop, DomainTop, isEnabled_disable hlt, (SameButStatus.disable hlt).isCompatible,
    Bool.and_eq_true]
  constructor
  · rintro ⟨hpos, ⟨henabled, -⟩, hcompatible⟩
    exact ⟨hpos, henabled, hcompatible⟩
  · rintro ⟨hpos, henabled, hcompatible⟩
    refine ⟨hpos, ⟨henabled, decide_eq_true ?_⟩, hcompatible⟩
    intro hmem
    have hinside : doc.InDomainTree i := ⟨i, ⟨hpos, henabled, hcompatible⟩, .inl rfl⟩
    exact hnodes i hmem hinside.passedOver

/-- Where no node that is passed over has been disabled, the same nodes are passed over. -/
theorem passedOver_disable (hlt : ∀ k ∈ nodes, k < doc.forest.size)
    (hnodes : ∀ k ∈ nodes, ¬ doc.PassedOver k) :
    (doc.disable nodes).PassedOver i ↔ doc.PassedOver i := by
  simp only [PassedOver, domainTop_disable hlt hnodes, (SameButStatus.disable hlt).depth?]

theorem policy_disable (hlt : ∀ k ∈ nodes, k < doc.forest.size) :
    (doc.disable nodes).policy = doc.policy := by
  simp only [policy, (SameButStatus.disable hlt).isCompatible, (SameButStatus.disable hlt).size]

end Document

namespace PowerDomain

variable {policy : Policy} {owns : Ownership} {doc : Document} {nodes : List Nat}

namespace Policy

variable {i : Nat}

theorem stopsAt_disable (h : ∀ k ∈ nodes, policy.Restricts owns doc k) :
    policy.StopsAt (doc.disable nodes) i ↔ policy.StopsAt doc i := by
  cases policy with
  | legacy =>
    exact not_congr (Document.passedOver_disable (fun k hk => (h k hk).lt_size)
      fun k hk => (h k hk).stopsAt)
  | generic => exact Iff.rfl

/-- After some nodes were disabled that were to be, the others still are to be. -/
theorem restricts_disable (h : ∀ k ∈ nodes, policy.Restricts owns doc k) :
    policy.Restricts owns (doc.disable nodes) i ↔ policy.Restricts owns doc i ∧ i ∉ nodes := by
  have hlt : ∀ k ∈ nodes, k < doc.forest.size := fun k hk => (h k hk).lt_size
  have hsame := SameButStatus.disable hlt
  constructor
  · intro hrestricts
    have henabled := hrestricts.isEnabled
    rw [Document.isEnabled_disable hlt, Bool.and_eq_true, decide_eq_true_eq] at henabled
    obtain ⟨resource, hasks, hunowned⟩ := hrestricts.asks
    exact ⟨⟨hrestricts.pos, hsame.size ▸ hrestricts.lt_size, henabled.1,
      (stopsAt_disable h).1 hrestricts.stopsAt, resource, (hsame.asks policy).1 hasks, hunowned⟩,
      henabled.2⟩
  · rintro ⟨hrestricts, hnot⟩
    obtain ⟨resource, hasks, hunowned⟩ := hrestricts.asks
    refine ⟨hrestricts.pos, hsame.size.symm ▸ hrestricts.lt_size, ?_,
      (stopsAt_disable h).2 hrestricts.stopsAt, resource, (hsame.asks policy).2 hasks, hunowned⟩
    rw [Document.isEnabled_disable hlt, hrestricts.isEnabled, decide_eq_true hnot]
    rfl

/-- The fixup fails where it would have failed before. -/
theorem Fails.disable (h : ∀ k ∈ nodes, policy.Restricts owns doc k)
    (hfails : policy.Fails owns doc i) : policy.Fails owns (doc.disable nodes) i := by
  have hlt : ∀ k ∈ nodes, k < doc.forest.size := fun k hk => (h k hk).lt_size
  have hsame := SameButStatus.disable hlt
  have hnot : i ∉ nodes := fun hmem => (h i hmem).not_fails hfails
  refine ⟨?_, (stopsAt_disable h).2 hfails.stopsAt, ?_, ?_⟩
  · rw [Document.isEnabled_disable hlt, hfails.isEnabled, decide_eq_true hnot]
    rfl
  · intro resource hasks
    exact hfails.owned resource ((hsame.asks policy).1 hasks)
  · rw [hsame.failure?]
    exact hfails.failure

end Policy

/-! ## The second run -/

/-- A second run disables no node: it would be one of those that the first run came to, and the tree
refuses the write. -/
theorem Progress.eq_nil {original tree tree' : Tree} {nodes' : List Nat} {stop stop' : Nat}
    (h : Progress policy owns doc original tree nodes stop)
    (hstop : doc.forest.size ≤ stop ∨ policy.Fails owns doc stop)
    (h' : Progress policy owns (doc.disable nodes) tree tree' nodes' stop') : nodes' = [] := by
  have hnodes : ∀ k ∈ nodes, policy.Restricts owns doc k := fun k hk => (h.sound k hk).2
  cases hhead : nodes'.head? with
  | none => exact List.head?_eq_none_iff.1 hhead
  | some k =>
    obtain ⟨hlt', hrestricts'⟩ := h'.sound k (List.mem_of_mem_head? hhead)
    obtain ⟨hrestricts, hnot⟩ := (Policy.restricts_disable hnodes).1 hrestricts'
    have hlt : k < stop := by
      rcases hstop with hall | hfails
      · exact Nat.lt_of_lt_of_le hrestricts.lt_size hall
      · have hagain := hfails.disable hnodes
        have hle : stop' ≤ stop :=
          Nat.le_of_not_lt fun hbefore => h'.unfailed stop hbefore h.pos hagain
        exact Nat.lt_of_lt_of_le hlt' hle
    have hrefuses : tree.Refuses (doc.propertiesAt k) "status" disabledStatus :=
      (h.complete k hlt hrestricts).resolve_left hnot
    rw [← Document.propertiesAt_disable h.lt_size hnot] at hrefuses
    exact absurd hrefuses (h'.first k hhead)

end PowerDomain

namespace Tree

/-- **The fixup does nothing when it is run again.** Whatever the tree, its limit and the owners of
its resources, also where the tree refused to disable a node and where the fixup failed, a second run
leaves the tree as the first one left it. -/
theorem restrict_restrict {tree : Tree} {doc : Document} (hdoc : tree.Stores doc)
    (hsize : tree.totalSize < 2 ^ 32) (owns : Ownership) :
    (Fixup.result (restrict owns) (Fixup.result (restrict owns) tree).2).2 =
      (Fixup.result (restrict owns) tree).2 := by
  obtain ⟨nodes, stop, hprogress, hstop⟩ := hdoc.restrict hsize owns
  obtain ⟨nodes', stop', hagain, -⟩ := hprogress.holds.restrict owns
  rw [Document.policy_disable hprogress.lt_size] at hagain
  exact hagain.untouched (hprogress.eq_nil hstop hagain)

/-- The serial ports in a tree that has no free space and may not grow: the one that is to be disabled
is refused both times. -/
theorem restrict_restrict_busTree :
    (Fixup.result (restrict ownsNothing) (Fixup.result (restrict ownsNothing)
        (busTree.withMaxSize busTree.totalSize)).2).2 =
      (Fixup.result (restrict ownsNothing) (busTree.withMaxSize busTree.totalSize)).2 := by
  have hdoc : (busTree.withMaxSize busTree.totalSize).Stores busDocument := stores_busTree
  exact restrict_restrict hdoc (by decide +kernel) ownsNothing

end Tree

end BootTree
