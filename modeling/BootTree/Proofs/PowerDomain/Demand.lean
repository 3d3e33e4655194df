import BootTree.Proofs.PowerDomain.Dependence

/-!
# BootTree.Proofs.PowerDomain.Demand

What is asked for one node of a stored tree. The plans for a node, computed from the bytes of the
tree, ask for what the document says, and end in the error that the document says.

* `PowerDomain.value_firstUnowned`: what carrying out a plan comes to.
* `Tree.Stores.chainFrom`: the plan that follows a chain of domains.
* `PowerDomain.mem_requests_entryDemand`, `Tree.Stores.mem_requests_listDemand`: the plan that goes
  through a list of domains.
* `Tree.Stores.firstUnowned_cases`: what looking for a resource that is not owned comes to.
-/

namespace BootTree

namespace PowerDomain

/-! ## Carrying out a plan -/

/-- A plan ends at the first resource that is not owned, or in its own error. -/
theorem value_firstUnowned (owns : Ownership) (plan : Plan Resource) :
    (firstUnowned owns plan).value =
      match plan.requests.find? fun resource => !owns resource, plan.failure? with
      | some resource, _ => .ok (some resource)
      | none, some e => .error e
      | none, none => .ok none := by
  induction plan with
  | nil => rfl
  | cons step rest ih =>
    cases step with
    | note record => exact ih
    | fail e => rfl
    | ask resource =>
      rw [Plan.requests, Plan.failure?, List.find?_cons, firstUnowned, Reported.value_bind]
      cases owns resource with
      | true => exact ih
      | false => rfl

theorem requests_note_append (level : Log.Level) (target message : String) (plan : Plan Resource) :
    (Plan.note level target message ++ plan).requests = plan.requests := rfl

theorem failure?_note_append (level : Log.Level) (target message : String) (plan : Plan Resource) :
    (Plan.note level target message ++ plan).failure? = plan.failure? := rfl

end PowerDomain

namespace Tree.Stores

open PowerDomain

variable {tree : Tree} {doc : Document} {i : Nat} {ref : NodeRef}

/-! ## Chains -/

/-- A node's reference to its power domain leads where the document says. -/
theorem link_cases (h : tree.Stores doc) (href : tree.nodes[i]? = some ref) :
    (∃ e, doc.domain? i = .error e ∧ link tree ref = .broken e) ∨
      (doc.domain? i = .ok none ∧ ∃ record, link tree ref = .ends record) ∨
      ∃ domain node resource, doc.domain? i = .ok (some (domain, resource)) ∧
        tree.nodes[domain]? = some node ∧ link tree ref = .domain node resource := by
  rw [link, h.value_eq href, Document.domain?, Document.cell, readAs]
  rw [Document.value?]
  cases hvalue : valueOf? (doc.propertiesAt i) listProperty with
  | none => exact .inr (.inl ⟨rfl, _, rfl⟩)
  | some raw =>
    by_cases hlength : raw.length = 4
    · dsimp only
      rw [if_neg (not_not_intro hlength), singleCell_of_length hlength, h.findRaw]
      dsimp only
      cases hfound : doc.findRaw ((Bytes.word? raw).getD 0) with
      | error e => exact .inl ⟨e, rfl, rfl⟩
      | ok found =>
        cases found with
        | none => exact .inr (.inl ⟨rfl, _, rfl⟩)
        | some domain =>
          obtain ⟨node, hnode⟩ := h.exists_of_findRaw hfound
          dsimp only [Except.map, Option.bind_some]
          rw [hnode]
          dsimp only
          rw [h.cell hnode]
          cases doc.cell domain "reg" with
          | error e => exact .inr (.inl ⟨rfl, _, rfl⟩)
          | ok reg =>
            dsimp only
            by_cases hresource : (⟨reg.getD 0⟩ : Resource) = Resource.unassigned
            · rw [if_pos hresource, if_pos hresource]
              exact .inr (.inl ⟨rfl, _, rfl⟩)
            · rw [if_neg hresource, if_neg hresource]
              exact .inr (.inr ⟨domain, node, _, rfl, hnode, rfl⟩)
    · dsimp only
      rw [if_pos hlength, singleCell_of_length_ne hlength]
      exact .inr (.inl ⟨rfl, _, rfl⟩)

/-- The plan that follows a chain asks for the resources on it. -/
theorem chainFrom (h : tree.Stores doc) (device : NodeRef) (links : Nat)
    (href : tree.nodes[i]? = some ref) :
    (chainFrom tree device links ref).requests = (doc.chainFrom links i).resources ∧
      (chainFrom tree device links ref).failure? = (doc.chainFrom links i).failure := by
  induction links generalizing i ref with
  | zero => exact ⟨rfl, rfl⟩
  | succ links ih =>
    rw [PowerDomain.chainFrom, Document.chainFrom]
    rcases h.link_cases href with ⟨e, hdomain, hlink⟩ | ⟨hdomain, record, hlink⟩ |
      ⟨domain, node, resource, hdomain, hnode, hlink⟩
    · rw [hdomain, hlink]
      exact ⟨rfl, rfl⟩
    · rw [hdomain, hlink]
      cases record with
      | none => exact ⟨rfl, rfl⟩
      | some record => exact ⟨rfl, rfl⟩
    · rw [hdomain, hlink]
      dsimp only
      rw [requests_note_append, failure?_note_append, Plan.requests, Plan.failure?,
        h.isCompatible hnode]
      by_cases htop : doc.isCompatible domain legacyCompatible = true
      · rw [if_pos htop, if_pos htop]
        exact ⟨rfl, rfl⟩
      · rw [if_neg htop, if_neg htop, (ih hnode).1, (ih hnode).2]
        exact ⟨rfl, rfl⟩

end Tree.Stores

/-! ## Lists -/

namespace SlotList

variable {list : SlotList} {k : Nat}

theorem entry_eq_ok_iff {node : NodeRef} {args : List UInt32} :
    list.entry k = .ok (node, args) ↔ list.slots[k]? = some (.reference node args) := by
  rw [entry]
  cases list.slots[k]? with
  | none => cases list.failure <;> simp
  | some slot => cases slot <;> simp

theorem entry_eq_notFound_iff (hk : k < list.slots.length) :
    list.entry k = .error .notFound ↔ list.slots[k]? = some .empty := by
  rw [entry, List.getElem?_eq_getElem hk]
  cases list.slots[k] with
  | empty => simp
  | reference node args => simp

end SlotList

namespace PowerDomain

section Entries

variable {target name : String} {mask : UInt32} {list : Except TreeError SlotList}
  {resource : Resource}

/-- The plan for the first index comes first. Only an entry that does not exist ends the plan. -/
theorem entryDemand_cons (index : Nat) (rest : List Nat) :
    entryDemand target name mask list (index :: rest) =
      entryDemand target name mask list [index] ++
        if Edma.isMasked mask index = false ∧ list.bind (·.entry index) = .error .notFound then []
        else entryDemand target name mask list rest := by
  rw [entryDemand, entryDemand]
  cases hmask : Edma.isMasked mask index with
  | true => rfl
  | false =>
    rw [if_neg (by simp), if_neg (by simp)]
    cases list.bind (·.entry index) with
    | error e => cases e <;> rfl
    | ok found =>
      obtain ⟨node, args⟩ := found
      cases args <;> rfl

/-- An entry's resource is asked for, or the entry lets the plan go on to the next one. -/
theorem mem_requests_entryDemand_cons {index : Nat} {rest : List Nat} :
    resource ∈ (entryDemand target name mask list (index :: rest)).requests ↔
      (Edma.isMasked mask index = false ∧
        ∃ node args, list.bind (·.entry index) = .ok (node, resource.id :: args)) ∨
      ((Edma.isMasked mask index = false → list.bind (·.entry index) ≠ .error .notFound) ∧
        resource ∈ (entryDemand target name mask list rest).requests) := by
  rw [entryDemand]
  cases hmask : Edma.isMasked mask index with
  | true => simp
  | false =>
    rw [if_neg (by simp)]
    cases hentry : list.bind (·.entry index) with
    | error e =>
      cases e with
      | notFound => simp [Plan.requests]
      | _ => simp [requests_note_append]
    | ok found =>
      obtain ⟨node, args⟩ := found
      cases args with
      | nil => simp [requests_note_append]
      | cons arg args =>
        have heq : resource = ⟨arg⟩ ↔ arg = resource.id := by
          constructor
          · intro h
            rw [h]
          · intro h
            rw [h]
        simp [Plan.requests, heq]

/-- The plan that goes through a list asks for the resources of the entries that are not switched
off, up to the first such entry that does not exist. -/
theorem mem_requests_entryDemand {start count : Nat} :
    resource ∈ (entryDemand target name mask list (List.range' start count)).requests ↔
      ∃ k, start ≤ k ∧ k < start + count ∧ Edma.isMasked mask k = false ∧
        (∃ node args, list.bind (·.entry k) = .ok (node, resource.id :: args)) ∧
        ∀ m, start ≤ m → m < k → Edma.isMasked mask m = false →
          list.bind (·.entry m) ≠ .error .notFound := by
  induction count generalizing start with
  | zero =>
    constructor
    · intro h
      cases h
    · rintro ⟨k, hle, hlt, -⟩
      omega
  | succ count ih =>
    rw [List.range'_succ, mem_requests_entryDemand_cons, ih]
    constructor
    · rintro (⟨hmask, hentry⟩ | ⟨hgoes, k, hle, hlt, hmask, hentry, hbefore⟩)
      · refine ⟨start, Nat.le_refl _, by omega, hmask, hentry, ?_⟩
        intro m hle hlt
        omega
      · refine ⟨k, by omega, by omega, hmask, hentry, ?_⟩
        intro m hm hmk
        by_cases hstart : m = start
        · subst hstart
          exact hgoes
        · exact hbefore m (by omega) hmk
    · rintro ⟨k, hle, hlt, hmask, hentry, hbefore⟩
      by_cases hstart : k = start
      · subst hstart
        exact .inl ⟨hmask, hentry⟩
      · refine .inr ⟨hbefore start (Nat.le_refl _) (by omega), k, by omega, by omega, hmask, hentry,
          ?_⟩
        intro m hm
        exact hbefore m (by omega)

theorem failure?_entryDemand (indices : List Nat) :
    (entryDemand target name mask list indices).failure? = none := by
  induction indices with
  | nil => rfl
  | cons index rest ih =>
    rw [entryDemand]
    cases Edma.isMasked mask index with
    | true => exact ih
    | false =>
      rw [if_neg (by simp)]
      cases list.bind (·.entry index) with
      | error e =>
        cases e with
        | notFound => rfl
        | _ => exact ih
      | ok found =>
        obtain ⟨node, args⟩ := found
        cases args with
        | nil => exact ih
        | cons arg args => exact ih

end Entries

end PowerDomain

namespace Tree.Stores

open PowerDomain

variable {tree : Tree} {doc : Document} {i : Nat} {ref : NodeRef} {resource : Resource}

theorem listLength_eq (h : tree.Stores doc) (href : tree.nodes[i]? = some ref) :
    listLength tree ref =
      match doc.cells i listProperty with
      | .ok (some cells) => cells.length
      | _ => 0 := by
  rewrite [listLength, h.cells href]
  rfl

/-- The entry that a tree reads at an index names a resource if the document's list does. -/
theorem entry_eq_ok_iff (h : tree.Stores doc) (href : tree.nodes[i]? = some ref) {list : SlotList}
    (hlist : tree.readSlots ref listProperty argumentRule = .ok list) {k : Nat} :
    (∃ node args, list.entry k = .ok (node, resource.id :: args)) ↔
      doc.ListsResource i k resource := by
  simp only [SlotList.entry_eq_ok_iff, h.readSlots_getElem? href hlist]
  constructor
  · rintro ⟨node, args, entry, hentry, hslot⟩
    cases entry with
    | none => cases hslot
    | some reference =>
      obtain ⟨found, args'⟩ := reference
      cases hslot
      exact ⟨found, args, hentry⟩
  · rintro ⟨found, args, hentry⟩
    exact ⟨_, args, _, hentry, rfl⟩

/-- In front of an entry that exists, an entry does not exist if it is an empty one. -/
theorem entry_eq_notFound_iff (h : tree.Stores doc) (href : tree.nodes[i]? = some ref)
    {list : SlotList} (hlist : tree.readSlots ref listProperty argumentRule = .ok list) {k m : Nat}
    (hk : doc.ListsResource i k resource) (hm : m < k) :
    list.entry m = .error .notFound ↔ doc.ListsNothing i m := by
  obtain ⟨node, args, hentry⟩ := (h.entry_eq_ok_iff href hlist).2 hk
  obtain ⟨hlt, -⟩ := List.getElem?_eq_some_iff.1 (SlotList.entry_eq_ok_iff.1 hentry)
  rw [SlotList.entry_eq_notFound_iff (Nat.lt_trans hm hlt), h.readSlots_getElem? href hlist]
  constructor
  · rintro ⟨entry, hentry, hslot⟩
    cases entry with
    | none => exact hentry
    | some reference => cases hslot
  · intro hnone
    exact ⟨none, hnone, rfl⟩

/-- The entries of a node's list that are asked for are those that the document lists. -/
theorem mem_requests_list (h : tree.Stores doc) (href : tree.nodes[i]? = some ref)
    (target name : String) (mask : UInt32) :
    resource ∈ (entryDemand target name mask (tree.readSlots ref listProperty argumentRule)
        (List.range (listLength tree ref))).requests ↔
      ∃ k, doc.ListsResource i k resource ∧ Edma.isMasked mask k = false ∧
        ∀ m < k, Edma.isMasked mask m = false → ¬ doc.ListsNothing i m := by
  rw [List.range_eq_range', mem_requests_entryDemand]
  cases hlist : tree.readSlots ref listProperty argumentRule with
  | error e =>
    constructor
    · rintro ⟨k, -, -, -, ⟨node, args, hentry⟩, -⟩
      cases hentry
    · rintro ⟨k, ⟨node, args, cells, entries, rest, hcells, -⟩, -⟩
      rw [readSlots, h.cells href, hcells] at hlist
      cases hlist
  | ok list =>
    constructor
    · rintro ⟨k, -, -, hmask, hentry, hbefore⟩
      have hlists := (h.entry_eq_ok_iff href hlist).1 hentry
      refine ⟨k, hlists, hmask, ?_⟩
      intro m hm hmask hnothing
      have hnotFound := (h.entry_eq_notFound_iff href hlist hlists hm).2 hnothing
      exact hbefore m (Nat.zero_le m) hm hmask hnotFound
    · rintro ⟨k, hlists, hmask, hbefore⟩
      have hlt : k < 0 + listLength tree ref := by
        obtain ⟨node, args, cells, entries, rest, hcells, hentries, hentry⟩ := hlists
        have := hentries.length_le
        obtain ⟨hk, -⟩ := List.getElem?_eq_some_iff.1 hentry
        rw [h.listLength_eq href, hcells]
        dsimp only
        omega
      refine ⟨k, Nat.zero_le k, hlt, hmask, (h.entry_eq_ok_iff href hlist).2 hlists, ?_⟩
      intro m _ hm hmask hnotFound
      exact hbefore m hm hmask ((h.entry_eq_notFound_iff href hlist hlists hm).1 hnotFound)

/-- The plan for a list of domains asks for what the document says. -/
theorem mem_requests_listDemand (h : tree.Stores doc) (href : tree.nodes[i]? = some ref) :
    resource ∈ (listDemand tree ref).requests ↔ Policy.generic.Asks doc i resource := by
  rw [listDemand, h.cell href, Policy.Asks, Document.channelMask]
  cases doc.cell i "dma-channel-mask" with
  | error e =>
    dsimp only
    rw [requests_note_append]
    exact h.mem_requests_list href _ _ 0
  | ok mask => exact h.mem_requests_list href _ _ _

theorem failure?_listDemand (tree : Tree) (ref : NodeRef) : (listDemand tree ref).failure? = none := by
  rw [listDemand]
  cases tree.cell ref "dma-channel-mask" with
  | error e => exact failure?_entryDemand _
  | ok mask => exact failure?_entryDemand _

end Tree.Stores

/-! ## Both policies -/

namespace PowerDomain.Policy

def demand : Policy → Tree → NodeRef → Plan Resource
  | legacy => chainDemand
  | generic => listDemand

end PowerDomain.Policy

namespace Tree.Stores

open PowerDomain

variable {tree : Tree} {doc : Document} {i : Nat} {ref : NodeRef}

theorem mem_requests_demand (h : tree.Stores doc) (href : tree.nodes[i]? = some ref)
    (policy : Policy) {resource : Resource} :
    resource ∈ (policy.demand tree ref).requests ↔ policy.Asks doc i resource := by
  cases policy with
  | legacy => rw [Policy.demand, chainDemand, (h.chainFrom ref maxChain href).1]; rfl
  | generic => exact h.mem_requests_listDemand href

theorem failure?_demand (h : tree.Stores doc) (href : tree.nodes[i]? = some ref) (policy : Policy) :
    (policy.demand tree ref).failure? = policy.failure? doc i := by
  cases policy with
  | legacy => exact (h.chainFrom ref maxChain href).2
  | generic => exact failure?_listDemand tree ref

/-- Looking for a resource of a node that is not owned finds one, finds that there is none, or fails
without having met one. -/
theorem firstUnowned_cases (h : tree.Stores doc) (href : tree.nodes[i]? = some ref)
    (policy : Policy) (owns : Ownership) :
    (∃ resource, (firstUnowned owns (policy.demand tree ref)).value = .ok (some resource) ∧
      policy.Asks doc i resource ∧ owns resource = false) ∨
    (∀ resource, policy.Asks doc i resource → owns resource = true) ∧
      ((firstUnowned owns (policy.demand tree ref)).value = .ok none ∧
          policy.failure? doc i = none ∨
        ∃ e, (firstUnowned owns (policy.demand tree ref)).value = .error e ∧
          policy.failure? doc i = some e) := by
  rw [value_firstUnowned, h.failure?_demand href]
  cases hfind : (policy.demand tree ref).requests.find? fun resource => !owns resource with
  | some resource =>
    have hasks := (h.mem_requests_demand href policy).1 (List.mem_of_find?_eq_some hfind)
    have hunowned := List.find?_some hfind
    exact .inl ⟨resource, rfl, hasks, by simpa using hunowned⟩
  | none =>
    refine .inr ⟨?_, ?_⟩
    · intro resource hasks
      have := List.find?_eq_none.1 hfind resource ((h.mem_requests_demand href policy).2 hasks)
      simpa using this
    · cases policy.failure? doc i with
      | none => exact .inl ⟨rfl, rfl⟩
      | some e => exact .inr ⟨e, rfl, rfl⟩

end Tree.Stores

end BootTree
