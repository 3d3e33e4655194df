import BootTree.Proofs.Document.Written
import BootTree.Proofs.Fixup.Refusal
import BootTree.Proofs.PowerDomain.Warnings

/-!
# BootTree.Proofs.PowerDomain.Progress

How far the fixup of power domains has come. It goes from node to node, by places that its own edits
move; said of node numbers, the nodes in front of some number are dealt with, and of these only the
statuses have changed, so what is decided at the next node is decided by the document at the
beginning. Where a limit of the tree's size refuses to disable a node, it keeps refusing that.

* `Document.Clear`: what the legacy policy knows of a node that it has come to.
* `PowerDomain.Policy.Fails`: a node at which the fixup fails.
* `PowerDomain.Progress`: a tree in which the nodes in front of some number are dealt with.
* `PowerDomain.Progress.start`, `PowerDomain.Progress.skip`, `PowerDomain.Progress.disable`: the
  beginning, nodes that are left alone, and a node that is disabled or refused.
-/

namespace BootTree

open PowerDomain

/-! ## Where the walk stops -/

namespace Document

variable {doc : Document} {i : Nat}

/-- Behind the top of every domain tree in front of a node, the walk has come to a node directly
below the root again. -/
def Clear (doc : Document) (i : Nat) : Prop :=
  ∀ top < i, doc.DomainTop top →
    ∃ k depth, top < k ∧ k ≤ i ∧ doc.depth? k = some depth ∧ depth ≤ 1

theorem Clear.not_passedOver (h : doc.Clear i) (hi : ¬ doc.DomainTop i) : ¬ doc.PassedOver i := by
  rintro ⟨top, htop, hle, hdeep⟩
  have hlt : top < i := by
    rcases Nat.lt_or_eq_of_le hle with hlt | rfl
    · exact hlt
    · exact absurd htop hi
  obtain ⟨k, depth, htopk, hki, hdepth, hone⟩ := h top hlt htop
  have := hdeep k htopk hki depth hdepth
  omega

theorem Clear.succ (h : doc.Clear i) (hi : ¬ doc.DomainTop i) : doc.Clear (i + 1) := by
  intro top hlt htop
  have hlt' : top < i := by
    rcases Nat.lt_or_eq_of_le (Nat.le_of_lt_succ hlt) with hlt' | rfl
    · exact hlt'
    · exact absurd htop hi
  obtain ⟨k, depth, htopk, hki, hdepth, hone⟩ := h top hlt' htop
  exact ⟨k, depth, htopk, Nat.le_succ_of_le hki, hdepth, hone⟩

theorem clear_one (doc : Document) : doc.Clear 1 := by
  intro top hlt htop
  have := htop.1
  omega

/-- The status of a usable node takes no more space than that of a disabled one. -/
theorem propertyCost_status_le {i : Nat} (h : doc.isEnabled i = true) {old : Bytes}
    (hold : valueOf? (doc.propertiesAt i) "status" = some old) :
    Tree.propertyCost old ≤ Tree.propertyCost disabledStatus := by
  rw [isEnabled, readAs, hold] at h
  dsimp only at h
  cases htext : StringList.text old with
  | error e =>
    rw [htext] at h
    cases h
  | ok status =>
    rw [htext] at h
    simp only [Bool.or_eq_true, decide_eq_true_eq] at h
    rw [(StringList.text_eq_ok_iff.1 htext).1]
    rcases h with rfl | rfl <;> decide

end Document

namespace PowerDomain

/-- What is known of a node that the walk has come to. -/
def Policy.Arrives : Policy → Document → Nat → Prop
  | legacy, doc, i => doc.Clear i
  | generic, _, _ => True

theorem Policy.arrives_one (policy : Policy) (doc : Document) : policy.Arrives doc 1 := by
  cases policy with
  | legacy => exact doc.clear_one
  | generic => trivial

/-- A node at which the fixup fails: nothing that is asked for there is in the way, and looking for
its resources ends in an error. -/
structure Policy.Fails (policy : Policy) (owns : Ownership) (doc : Document) (i : Nat) : Prop where
  isEnabled : doc.isEnabled i = true
  stopsAt : policy.StopsAt doc i
  owned : ∀ resource, policy.Asks doc i resource → owns resource = true
  failure : ∃ e, policy.failure? doc i = some e

/-- A list of domains never makes the fixup fail: a malformed one is only logged. -/
theorem Policy.not_fails_generic (owns : Ownership) (doc : Document) (i : Nat) :
    ¬ Policy.generic.Fails owns doc i := by
  intro hfails
  obtain ⟨e, he⟩ := hfails.failure
  cases he

theorem Policy.Restricts.not_fails {policy : Policy} {owns : Ownership} {doc : Document} {i : Nat}
    (h : policy.Restricts owns doc i) : ¬ policy.Fails owns doc i := by
  intro hfails
  obtain ⟨resource, hasks, hunowned⟩ := h.asks
  rw [hfails.owned resource hasks] at hunowned
  cases hunowned

/-- A tree in the middle of the fixup: the nodes in front of `next` are dealt with, and these of them
were disabled, in this order. -/
structure Progress (policy : Policy) (owns : Ownership) (doc : Document) (original tree : Tree)
    (nodes : List Nat) (next : Nat) : Prop where
  pos : 0 < next
  frame : original.SameFrame tree
  holds : Tree.Holds "status" tree (doc.disable nodes)
  sound : ∀ k ∈ nodes, k < next ∧ policy.Restricts owns doc k
  complete : ∀ k < next, policy.Restricts owns doc k →
    k ∈ nodes ∨ tree.Refuses (doc.propertiesAt k) "status" disabledStatus
  unfailed : ∀ k < next, 0 < k → ¬ policy.Fails owns doc k
  untouched : nodes = [] → tree = original
  first : ∀ k, nodes.head? = some k →
    ¬ original.Refuses (doc.propertiesAt k) "status" disabledStatus

namespace Progress

variable {policy : Policy} {owns : Ownership} {doc : Document} {original tree : Tree}
  {nodes : List Nat} {i : Nat} {ref : NodeRef} {d : Int}

theorem lt_size (h : Progress policy owns doc original tree nodes i) :
    ∀ k ∈ nodes, k < doc.forest.size := by
  intro k hk
  exact (h.sound k hk).2.lt_size

theorem sameButStatus (h : Progress policy owns doc original tree nodes i) :
    SameButStatus doc (doc.disable nodes) := .disable h.lt_size

theorem visits (h : Progress policy owns doc original tree nodes i) :
    tree.visits (doc.disable nodes) = tree.visits doc := by
  rw [Tree.visits, Tree.visits, h.sameButStatus.outline]

theorem isEnabled_eq (h : Progress policy owns doc original tree nodes i) {k : Nat}
    (href : tree.nodes[k]? = some ref) :
    tree.isEnabled ref = (doc.isEnabled k && decide (k ∉ nodes)) := by
  rw [h.holds.stores.isEnabled href, Document.isEnabled_disable h.lt_size]

/-- The next node has not been disabled yet. -/
theorem not_mem (h : Progress policy owns doc original tree nodes i) : i ∉ nodes := by
  intro hmem
  exact Nat.lt_irrefl i (h.sound i hmem).1

theorem isEnabled (h : Progress policy owns doc original tree nodes i)
    (href : tree.nodes[i]? = some ref) : tree.isEnabled ref = doc.isEnabled i := by
  rw [h.isEnabled_eq href, decide_eq_true h.not_mem, Bool.and_true]

theorem next (h : Progress policy owns doc original tree nodes i) {k : Nat}
    (hvisit : (tree.visits doc)[k]? = some (ref, d)) :
    tree.next ref d = .ok (tree.visits doc)[k + 1]? := by
  rw [← h.visits] at hvisit ⊢
  exact h.holds.stores.next hvisit

/-- Without a limit of the tree's size nothing is refused. -/
theorem mem_of_restricts (h : Progress policy owns doc original tree nodes i)
    (hunlimited : original.maxSize = none) {k : Nat} (hk : k < i)
    (hrestricts : policy.Restricts owns doc k) : k ∈ nodes := by
  rcases h.complete k hk hrestricts with hmem | hrefuses
  · exact hmem
  · obtain ⟨limit, hlimit, -⟩ := hrefuses.full
    rw [h.frame.maxSize, hunlimited] at hlimit
    cases hlimit

/-- Nodes that are not to be disabled, and at which the fixup does not fail, may be left out. -/
theorem skip (h : Progress policy owns doc original tree nodes i) {j : Nat} (hle : i ≤ j)
    (hnone : ∀ k, i ≤ k → k < j → ¬ policy.Restricts owns doc k ∧ ¬ policy.Fails owns doc k) :
    Progress policy owns doc original tree nodes j := by
  refine ⟨Nat.lt_of_lt_of_le h.pos hle, h.frame, h.holds, ?_, ?_, ?_, h.untouched, h.first⟩
  · intro k hk
    exact ⟨Nat.lt_of_lt_of_le (h.sound k hk).1 hle, (h.sound k hk).2⟩
  · intro k hk hrestricts
    by_cases hki : k < i
    · exact h.complete k hki hrestricts
    · exact absurd hrestricts (hnone k (Nat.le_of_not_lt hki) hk).1
  · intro k hk hpos
    by_cases hki : k < i
    · exact h.unfailed k hki hpos
    · exact (hnone k (Nat.le_of_not_lt hki) hk).2

theorem succ (h : Progress policy owns doc original tree nodes i)
    (hnot : ¬ policy.Restricts owns doc i) (hfails : ¬ policy.Fails owns doc i) :
    Progress policy owns doc original tree nodes (i + 1) := by
  apply h.skip (Nat.le_succ i)
  intro k hle hlt
  obtain rfl : k = i := by omega
  exact ⟨hnot, hfails⟩

theorem start (h : Tree.Holds "status" tree doc) (policy : Policy) (owns : Ownership) :
    Progress policy owns doc tree tree [] 1 := by
  refine ⟨Nat.zero_lt_one, .refl tree, h, ?_, ?_, ?_, fun _ => rfl, ?_⟩
  · intro k hk
    cases hk
  · intro k hk hrestricts
    have := hrestricts.pos
    omega
  · intro k hk hpos
    omega
  · intro k hfirst
    cases hfirst

/-! ## A node that is to be disabled -/

/-- The check of a node that is restricted comes to its end. -/
theorem unfailed_succ (h : Progress policy owns doc original tree nodes i)
    (hrestricts : policy.Restricts owns doc i) :
    ∀ k < i + 1, 0 < k → ¬ policy.Fails owns doc k := by
  intro k hk hpos
  rcases Nat.lt_or_eq_of_le (Nat.le_of_lt_succ hk) with hlt | rfl
  · exact h.unfailed k hlt hpos
  · exact hrestricts.not_fails

/-- The refused node is dealt with. -/
theorem refused (h : Progress policy owns doc original tree nodes i)
    (hrestricts : policy.Restricts owns doc i)
    (hrefuses : tree.Refuses (doc.propertiesAt i) "status" disabledStatus) :
    Progress policy owns doc original tree nodes (i + 1) := by
  refine ⟨Nat.succ_pos i, h.frame, h.holds, ?_, ?_, h.unfailed_succ hrestricts, h.untouched,
    h.first⟩
  · intro k hk
    exact ⟨Nat.lt_succ_of_lt (h.sound k hk).1, (h.sound k hk).2⟩
  · intro k hk hother
    rcases Nat.lt_or_eq_of_le (Nat.le_of_lt_succ hk) with hlt | rfl
    · exact h.complete k hlt hother
    · exact .inr hrefuses

/-- The node has been disabled, and what was refused before is still refused. -/
theorem disabled (h : Progress policy owns doc original tree nodes i)
    (hrestricts : policy.Restricts owns doc i)
    (hnot : ¬ tree.Refuses (doc.propertiesAt i) "status" disabledStatus) {tree' : Tree}
    (hupdated : Tree.Updated tree tree' (doc.disable nodes) i ref "status"
      (withValue "status" disabledStatus))
    (hkept : ∀ properties, tree.Refuses properties "status" disabledStatus →
      tree'.Refuses properties "status" disabledStatus) :
    Progress policy owns doc original tree' (nodes ++ [i]) (i + 1) := by
  refine ⟨Nat.succ_pos i, ?_, ?_, ?_, ?_, h.unfailed_succ hrestricts, ?_, ?_⟩
  · exact h.frame.trans ⟨hupdated.bootCpu, hupdated.reservations, hupdated.maxSize⟩
  · rw [Document.disable_concat]
    exact h.holds.updated hupdated (.inl rfl)
  · intro k hk
    rcases List.mem_append.1 hk with hk | hk
    · exact ⟨Nat.lt_succ_of_lt (h.sound k hk).1, (h.sound k hk).2⟩
    · obtain rfl := List.mem_singleton.1 hk
      exact ⟨Nat.lt_succ_self k, hrestricts⟩
  · intro k hk hother
    rcases Nat.lt_or_eq_of_le (Nat.le_of_lt_succ hk) with hlt | rfl
    · rcases h.complete k hlt hother with hmem | hrefuses
      · exact .inl (List.mem_append_left _ hmem)
      · exact .inr (hkept _ hrefuses)
    · exact .inl (List.mem_append_right _ List.mem_cons_self)
  · intro hnone
    cases List.append_eq_nil_iff.1 hnone |>.2
  · intro k hfirst
    cases nodes with
    | nil =>
      rw [List.nil_append, List.head?_cons, Option.some.injEq] at hfirst
      rw [← hfirst, ← h.untouched rfl]
      exact hnot
    | cons j js => exact h.first k hfirst

/-- A node that is to be disabled is, unless a limit of the tree's size refuses it. -/
theorem disable (h : Progress policy owns doc original tree nodes i)
    (href : tree.nodes[i]? = some ref) (hrestricts : policy.Restricts owns doc i) :
    ∃ outcome tree' nodes', (disable ref).result tree = (outcome, tree') ∧
      Progress policy owns doc original tree' nodes' (i + 1) ∧ tree'.nodes[i]? = some ref := by
  obtain ⟨node, pre, body, inner, post, hat⟩ := h.holds.stores.exists_storedAt href
  have hproperties : node.properties = doc.propertiesAt i := by
    rw [← Document.propertiesAt_disable h.lt_size h.not_mem, Document.propertiesAt, hat.properties?_eq]
    rfl
  by_cases hrefuses : tree.Refuses (doc.propertiesAt i) "status" disabledStatus
  · obtain ⟨e, hresult⟩ := hat.result_setGrowing_of_refuses (by rwa [hproperties])
    exact ⟨.error e, tree, nodes, hresult, h.refused hrestricts hrefuses, href⟩
  · have hcost : Tree.propertyCost disabledStatus + ((Bytes.ofText "status").length + 1) ≤
        growIncrement := by decide
    have hlonger : ∀ old, valueOf? node.properties "status" = some old →
        Tree.propertyCost old ≤ Tree.propertyCost disabledStatus := by
      intro old hold
      rw [hproperties] at hold
      exact Document.propertyCost_status_le hrestricts.isEnabled hold
    obtain ⟨tree', hresult, hupdated, hkept⟩ := hat.exists_written (by decide)
      (h.holds.nameOffset_lt "status") hcost hlonger (by rwa [hproperties])
    exact ⟨.ok (), tree', nodes ++ [i], hresult, h.disabled hrestricts hrefuses hupdated hkept,
      hupdated.shifted.getElem? href⟩

end Progress

end PowerDomain

end BootTree
