import BootTree.Proofs.PowerDomain.Visiting

/-!
# BootTree.Proofs.PowerDomain.Restrict

What the fixup of power domains does to the document: every visit goes on to a later node, so by
induction on the number of nodes that are left, all of them are dealt with, up to the end or to a node
at which the fixup fails.

* `PowerDomain.Progress.walk`, `Tree.Holds.apply`, `Tree.Holds.restrict`: all nodes.
* `Document.policy`: the policy that a document asks for.
* `Tree.Stores.isEnabled_restrict`: without a limit and without failure all nodes are disabled that
  are to be.
* `Tree.Stores.exists_disabled_restrict`: the nodes that the fixup disables.
-/

namespace BootTree

open PowerDomain

/-! ## All nodes -/

/-- The walk from a node on, by induction on the number of visits that are left: there are as many as
nodes from there on. -/
theorem PowerDomain.Progress.walk {policy : Policy} {owns : Ownership} {doc : Document}
    {original tree : Tree} {nodes : List Nat} {i visits : Nat}
    (h : Progress policy owns doc original tree nodes i)
    (harrives : i < doc.forest.size → policy.Arrives doc i)
    (hvisits : doc.forest.size ≤ i + visits) :
    ∃ outcome tree' nodes' stop,
      (walk (policy.visit owns) visits (tree.visits doc)[i]?).result tree = (outcome, tree') ∧
      Progress policy owns doc original tree' nodes' stop ∧
      (outcome = .ok () ∧ doc.forest.size ≤ stop ∨
        (∃ e, outcome = .error e) ∧ policy.Fails owns doc stop) ∧
      ∀ k, i ≤ k → k ≤ stop → k < doc.forest.size → policy.StopsAt doc k → policy.Told owns doc k
        ((PowerDomain.walk (policy.visit owns) visits (tree.visits doc)[i]?).events tree) := by
  have hlength : (tree.visits doc).length = doc.forest.size := by
    rw [← h.visits, h.holds.stores.length_visits, h.sameButStatus.size]
  induction visits generalizing tree nodes i with
  | zero =>
    have hnone : (tree.visits doc)[i]? = none := List.getElem?_eq_none (by omega)
    rw [hnone]
    refine ⟨.ok (), tree, nodes, i, rfl, h, .inl ⟨rfl, hvisits⟩, ?_⟩
    intro k hle _ hlt
    omega
  | succ visits ih =>
    cases hvisit : (tree.visits doc)[i]? with
    | none =>
      rw [List.getElem?_eq_none_iff] at hvisit
      refine ⟨.ok (), tree, nodes, i, rfl, h, .inl ⟨rfl, by omega⟩, ?_⟩
      intro k hle _ hlt
      omega
    | some n =>
      obtain ⟨ref, d⟩ := n
      have hlt : i < doc.forest.size := hlength ▸ (List.getElem?_eq_some_iff.1 hvisit).1
      rw [PowerDomain.walk]
      obtain ⟨outcome, tree', nodes', hresult, hcases, hwarned⟩ := h.visit hvisit (harrives hlt)
      have htold (hstops : policy.StopsAt doc i) : policy.Told owns doc i
          ((policy.visit owns ref d >>= PowerDomain.walk (policy.visit owns) visits).events tree) :=
        (h.told hvisit (hwarned hstops)).mono (Attempt.events_bind_prefix _ tree _).subset
      rcases hcases with ⟨j, hij, rfl, hprogress, harrives', hbetween⟩ | ⟨⟨e, rfl⟩, hfails, hprogress⟩
      · have hlength' : (tree'.visits doc).length = doc.forest.size := by
          rw [← hprogress.visits, hprogress.holds.stores.length_visits, hprogress.sameButStatus.size]
        obtain ⟨outcome, tree'', nodes'', stop, hresult', hprogress', houtcome, hrest⟩ :=
          ih hprogress harrives' (by omega) hlength'
        refine ⟨outcome, tree'', nodes'', stop, ?_, hprogress', houtcome, ?_⟩
        · rw [Attempt.result_bind_of_ok hresult]
          exact hresult'
        · -- the node itself, those in between, and those of the rest of the walk
          intro k hik hkstop hksize hstops
          rcases Nat.eq_or_lt_of_le hik with rfl | hbehind
          · exact htold hstops
          by_cases hkj : k < j
          · exact absurd hstops (hbetween k hbehind hkj)
          · rw [Attempt.events_bind_of_ok hresult]
            exact (hrest k (Nat.le_of_not_lt hkj) hkstop hksize hstops).mono
              (List.subset_append_right _ _)
      · refine ⟨.error e, tree', nodes', i, Attempt.result_bind_of_error hresult _, hprogress,
          .inr ⟨⟨e, rfl⟩, hfails⟩, ?_⟩
        intro k hik hki _ hstops
        obtain rfl := Nat.le_antisymm hik hki
        exact htold hstops

/-! ## The policy of a document -/

namespace Document

variable {doc : Document}

/-- Generic if there is a provider of the generic description. -/
def policy (doc : Document) : Policy :=
  if (List.range doc.forest.size).any (doc.isCompatible · genericCompatible) then .generic
  else .legacy

theorem lt_size_of_isCompatible {i : Nat} {compatible : Bytes}
    (h : doc.isCompatible i compatible = true) : i < doc.forest.size := by
  by_contra hle
  rw [isCompatible, value?_of_size_le (Nat.le_of_not_lt hle)] at h
  cases h

theorem policy_eq_generic {i : Nat} (h : doc.isCompatible i genericCompatible = true) :
    doc.policy = .generic :=
  if_pos (List.any_eq_true.2 ⟨i, List.mem_range.2 (lt_size_of_isCompatible h), h⟩)

theorem policy_eq_legacy_iff :
    doc.policy = .legacy ↔ ∀ i, doc.isCompatible i genericCompatible = false := by
  constructor
  · intro h i
    by_contra hcompatible
    rw [Bool.not_eq_false] at hcompatible
    rw [policy_eq_generic hcompatible] at h
    cases h
  · intro h
    have hnone : (List.range doc.forest.size).any (doc.isCompatible · genericCompatible) = false := by
      rw [List.any_eq_false]
      intro i _
      simp [h i]
    rw [policy, hnone]
    rfl

end Document

namespace Tree.Stores

variable {tree : Tree} {doc : Document}

theorem value_detect (h : tree.Stores doc) : (detect tree).value = doc.policy := by
  rw [detect, h.findCompatible]
  cases hfound : (List.range doc.forest.size).find? (doc.isCompatible · genericCompatible) with
  | none =>
    have hlegacy : doc.policy = .legacy := by
      rw [Document.policy_eq_legacy_iff]
      intro i
      by_contra hcompatible
      rw [Bool.not_eq_false] at hcompatible
      have hmem := List.mem_range.2 (Document.lt_size_of_isCompatible hcompatible)
      exact List.find?_eq_none.1 hfound i hmem hcompatible
    rw [hlegacy]
    rfl
  | some i =>
    have hcompatible := List.find?_some hfound
    have hlt := Document.lt_size_of_isCompatible hcompatible
    rw [← h.length_nodes] at hlt
    rw [Document.policy_eq_generic hcompatible]
    dsimp only [Option.bind_some]
    rw [List.getElem?_eq_getElem hlt]
    rfl

end Tree.Stores

/-! ## The fixup -/

namespace Tree.Holds

variable {tree : Tree} {doc : Document}

/-- All nodes below the root are dealt with, or those up to one at which the fixup fails. -/
theorem apply (h : Holds "status" tree doc) (policy : Policy) (owns : Ownership) :
    ∃ outcome tree' nodes stop, (apply policy owns).result tree = (outcome, tree') ∧
      Progress policy owns doc tree tree' nodes stop ∧
      (outcome = .ok () ∧ doc.forest.size ≤ stop ∨
        (∃ e, outcome = .error e) ∧ policy.Fails owns doc stop) ∧
      ∀ k, 1 ≤ k → k ≤ stop → k < doc.forest.size → policy.StopsAt doc k →
        policy.Told owns doc k ((PowerDomain.apply policy owns).events tree) := by
  obtain ⟨ref, href, hroot⟩ := h.stores.root
  have hvisit : (tree.visits doc)[0]? = some (ref, 0) :=
    visits_getElem?_eq_some_iff.2 ⟨href, 0, rfl, rfl⟩
  have hfuel : doc.forest.size ≤ 1 + tree.structBlock.length :=
    Nat.le_trans h.stores.size_le_length (Nat.le_add_left _ _)
  have hstart : (Attempt.ask Tree.root).result tree = (.ok ref, tree) := by
    rw [Attempt.result_ask, hroot]
  have hfirst : (Attempt.ask (·.next ref 0)).result tree = (.ok (tree.visits doc)[1]?, tree) := by
    rw [Attempt.result_ask, h.stores.next hvisit]
  obtain ⟨outcome, tree', nodes, stop, hresult, hprogress, houtcome, htold⟩ :=
    (Progress.start h policy owns).walk (fun _ => policy.arrives_one doc) hfuel
  refine ⟨outcome, tree', nodes, stop, ?_, hprogress, houtcome, ?_⟩
  · unfold PowerDomain.apply
    rw [Attempt.result_bind_of_ok hstart, Attempt.result_bind_of_ok hfirst,
      Attempt.result_bind_of_ok (Attempt.result_get tree)]
    exact hresult
  · intro k hk hkstop hksize hstops
    unfold PowerDomain.apply
    rw [Attempt.events_bind_of_ok hstart, Attempt.events_bind_of_ok hfirst,
      Attempt.events_bind_of_ok (Attempt.result_get tree)]
    exact (htold k hk hkstop hksize hstops).mono fun _ hmem => by simp [hmem]

theorem restrict (h : Holds "status" tree doc) (owns : Ownership) :
    ∃ nodes stop,
      Progress doc.policy owns doc tree (Fixup.result (restrict owns) tree).2 nodes stop ∧
      (doc.forest.size ≤ stop ∨ doc.policy.Fails owns doc stop) := by
  obtain ⟨outcome, tree', nodes, stop, hresult, hprogress, houtcome, -⟩ := h.apply doc.policy owns
  have htree : (Fixup.result (PowerDomain.restrict owns) tree).2 = tree' := by
    unfold Attempt.result at hresult
    rw [PowerDomain.restrict, Fixup.result_bind, Fixup.result_get, Fixup.result_bind,
      Fixup.result_reported, h.stores.value_detect, Fixup.result_bind, Fixup.result_log,
      Fixup.result_bind, hresult]
    cases outcome <;> rfl
  rw [htree]
  exact ⟨nodes, stop, hprogress, houtcome.imp And.right And.right⟩

end Tree.Holds

namespace Tree.Stores

variable {tree : Tree} {doc : Document}

theorem restrict (h : tree.Stores doc) (hsize : tree.totalSize < 2 ^ 32) (owns : Ownership) :
    ∃ nodes stop,
      Progress doc.policy owns doc tree (Fixup.result (restrict owns) tree).2 nodes stop ∧
      (doc.forest.size ≤ stop ∨ doc.policy.Fails owns doc stop) :=
  (Holds.ofStores h hsize (by decide)).restrict owns

/-- Without a limit of the tree's size, and if the fixup fails nowhere, it disables all nodes that are
to be disabled. -/
theorem isEnabled_restrict (h : tree.Stores doc) (hunlimited : tree.maxSize = none)
    (hsize : tree.totalSize < 2 ^ 32) {owns : Ownership}
    (hfails : ∀ k, ¬ doc.policy.Fails owns doc k) {i : Nat} (hi : i < doc.forest.size)
    (henabled : doc.isEnabled i = true) :
    ∃ ref, (Fixup.result (PowerDomain.restrict owns) tree).2.nodes[i]? = some ref ∧
      ((Fixup.result (PowerDomain.restrict owns) tree).2.isEnabled ref = false ↔
        doc.policy.Restricts owns doc i) := by
  obtain ⟨nodes, stop, hprogress, hstop⟩ := h.restrict hsize owns
  have hall : doc.forest.size ≤ stop := by
    rcases hstop with hall | hfailed
    · exact hall
    · exact absurd hfailed (hfails stop)
  have hlt : i < (Fixup.result (PowerDomain.restrict owns) tree).2.nodes.length := by
    rwa [hprogress.holds.stores.length_nodes, hprogress.sameButStatus.size]
  have href := List.getElem?_eq_getElem hlt
  refine ⟨_, href, ?_⟩
  rw [hprogress.isEnabled_eq href, henabled, Bool.true_and, decide_eq_false_iff_not, not_not]
  constructor
  · intro hmem
    exact (hprogress.sound i hmem).2
  · intro hrestricts
    exact hprogress.mem_of_restricts hunlimited (Nat.lt_of_lt_of_le hi hall) hrestricts

/-- **Which nodes are disabled.** Whatever the tree and whoever owns what, the fixup changes the
document only by disabling some usable nodes below the root, each of which depends on a resource that
is not owned; under the legacy policy none of them is part of a domain tree. -/
theorem exists_disabled_restrict (hdoc : tree.Stores doc) (hsize : tree.totalSize < 2 ^ 32)
    (owns : Ownership) :
    ∃ disabled : List Nat,
      (∀ doc', (Fixup.result (PowerDomain.restrict owns) tree).2.Stores doc' ↔
        doc' = doc.disable disabled) ∧
      (Fixup.result (PowerDomain.restrict owns) tree).2.reservations = tree.reservations ∧
      (Fixup.result (PowerDomain.restrict owns) tree).2.bootCpu = tree.bootCpu ∧
      ∀ i ∈ disabled, 0 < i ∧ i < doc.forest.size ∧ doc.isEnabled i = true ∧
        (∃ resource, doc.policy.Depends doc i resource ∧ owns resource = false) ∧
        (doc.policy = .legacy → ¬ doc.InDomainTree i) := by
  obtain ⟨nodes, stop, hprogress, -⟩ := hdoc.restrict hsize owns
  refine ⟨nodes, ?_, hprogress.frame.reservations, hprogress.frame.bootCpu, ?_⟩
  · intro doc'
    constructor
    · intro hstores
      exact hstores.unique hprogress.holds.stores
    · rintro rfl
      exact hprogress.holds.stores
  · intro i hi
    obtain ⟨-, hrestricts⟩ := hprogress.sound i hi
    obtain ⟨resource, hasks, hunowned⟩ := hrestricts.asks
    refine ⟨hrestricts.pos, hrestricts.lt_size, hrestricts.isEnabled,
      ⟨resource, hasks.depends, hunowned⟩, ?_⟩
    intro hlegacy hinside
    have hstops := hrestricts.stopsAt
    rw [hlegacy] at hstops
    exact hstops hinside.passedOver

end Tree.Stores

/-! ## A domain tree between two devices -/

namespace PowerDomain

/-- Two serial ports of a bus and the domain tree between them, which they both need. -/
def busDocument : Document where
  name := []
  properties := []
  children :=
    .node "bus@5a000000" []
      (.node "serial@5a060000" [⟨listProperty, Cells.encode [1]⟩] .nil
      (.node "imx8qm-pm" [⟨"compatible", StringList.join [legacyCompatible]⟩]
        (.node "PD_DMA" [⟨"reg", Cells.encode [57]⟩, ⟨"phandle", Cells.encode [1]⟩] .nil .nil)
      (.node "serial@5a070000" [⟨listProperty, Cells.encode [1]⟩] .nil .nil))) .nil

def busTree : Tree :=
  busDocument.write (StringList.join [listProperty, "compatible", "reg", "phandle", "status"]) 0

theorem stores_busTree : busTree.Stores busDocument :=
  Document.stores_write (by decide) rfl 0

theorem totalSize_busTree : busTree.totalSize < 2 ^ 32 := by decide +kernel

/-- The same tree with room to grow by one increment only. -/
def narrowBusTree : Tree := busTree.withMaxSize (busTree.totalSize + growIncrement)

def ownsNothing : Ownership := fun _ => false

end PowerDomain

/-- The first serial port is disabled, and nothing else changes. -/
theorem Tree.restrict_narrowBusTree :
    (∀ doc', (Fixup.result (restrict ownsNothing) narrowBusTree).2.Stores doc' ↔
        doc' = busDocument.disable [2]) ∧
      (Fixup.result (restrict ownsNothing) narrowBusTree).2.reservations = [] ∧
      (Fixup.result (restrict ownsNothing) narrowBusTree).2.bootCpu = 0 ∧
      busDocument.isEnabled 2 = true ∧ busDocument.policy.Depends busDocument 2 ⟨57⟩ ∧
      ownsNothing ⟨57⟩ = false ∧ ¬ busDocument.InDomainTree 2 := by
  have hdoc : narrowBusTree.Stores busDocument := stores_busTree
  have hrun : (Fixup.result (restrict ownsNothing) narrowBusTree).2 =
      ((busDocument.disable [2]).write
        (StringList.join [listProperty, "compatible", "reg", "phandle", "status"]) 488).withMaxSize
          (busTree.totalSize + growIncrement) := by
    decide +kernel
  have hafter : (Fixup.result (restrict ownsNothing) narrowBusTree).2.Stores
      (busDocument.disable [2]) := by
    rw [hrun]
    exact @Document.stores_write (busDocument.disable [2]) _ (by decide) rfl 488
  obtain ⟨disabled, hstores, hreservations, hbootCpu, hdisabled⟩ :=
    Stores.exists_disabled_restrict hdoc (by decide +kernel) ownsNothing
  have hsame : busDocument.disable [2] = busDocument.disable disabled := (hstores _).1 hafter
  have hmem : 2 ∈ disabled := by
    by_contra hnot
    have hleft := @Document.isEnabled_disable _ _ (fun k hk => (hdisabled k hk).2.1) 2
    rw [← hsame, decide_eq_true hnot] at hleft
    revert hleft
    decide
  obtain ⟨-, -, henabled, -, houtside⟩ := hdisabled 2 hmem
  have hdepends : (⟨57⟩ : Resource) ∈ (busDocument.chain 2).resources := by decide
  refine ⟨?_, hreservations, hbootCpu, henabled, hdepends, rfl, houtside rfl⟩
  rw [hsame]
  exact hstores

end BootTree
