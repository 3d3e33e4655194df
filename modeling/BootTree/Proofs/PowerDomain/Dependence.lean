import BootTree.PowerDomain.Restrict
import BootTree.Proofs.Document.Answers

/-!
# BootTree.Proofs.PowerDomain.Dependence

Which nodes of a document depend on which resources, and which of them a fixup may disable. All of
it is said of the document that the fixup starts with: disabling nodes changes nothing but their
statuses, and neither chains nor lists of power domains ask for those.

* `Document.domain?`, `Document.chainFrom`: chains of power domains.
* `PowerDomain.Policy.Depends`: the resources that a node depends on; `PowerDomain.Policy.Asks`:
  those that are asked for, which are fewer under the generic policy.
* `Document.InDomainTree`, `Document.PassedOver`: domain trees, and the nodes that a walk under the
  legacy policy does not stop at; `Document.passedOver_iff_inDomainTree`: where the two are the same.
* `Document.disable`: a document with some nodes disabled; `SameButStatus.disable`.
-/

namespace BootTree

namespace PowerDomain

/-- The resources on a chain of power domains, and the error that ended it early. -/
structure Chain where
  resources : List Resource
  failure : Option TreeError
  deriving Repr

end PowerDomain

namespace Document

open PowerDomain

variable (doc : Document)

/-! ## Chains and lists -/

/-- The power domain that a node refers to, with its resource. Without a `reg` of its own a domain
has resource zero; one with a malformed `reg`, or without a resource, counts as none. -/
def domain? (i : Nat) : Except TreeError (Option (Nat × Resource)) :=
  match doc.cell i listProperty with
  | .error _ | .ok none => .ok none
  | .ok (some target) =>
    match doc.findRaw target with
    | .error e => .error e
    | .ok none => .ok none
    | .ok (some domain) =>
      match doc.cell domain "reg" with
      | .error _ => .ok none
      | .ok reg =>
        if (⟨reg.getD 0⟩ : Resource) = Resource.unassigned then .ok none
        else .ok (some (domain, ⟨reg.getD 0⟩))

/-- The chain of domains that starts at a node, at most `links` domains long. It ends behind the top
of a domain tree. -/
def chainFrom : (links : Nat) → (i : Nat) → Chain
  | 0, _ => ⟨[], none⟩
  | links + 1, i =>
    match doc.domain? i with
    | .error e => ⟨[], some e⟩
    | .ok none => ⟨[], none⟩
    | .ok (some (domain, resource)) =>
      if doc.isCompatible domain legacyCompatible then ⟨[resource], none⟩
      else
        let rest := chainFrom links domain
        ⟨resource :: rest.resources, rest.failure⟩

def chain (i : Nat) : Chain := doc.chainFrom maxChain i

/-- The channels of a node that are switched off; a malformed mask switches off none. -/
def channelMask (i : Nat) : UInt32 :=
  match doc.cell i "dma-channel-mask" with
  | .ok mask => mask.getD 0
  | .error _ => 0

/-- The entry at an index of a node's list of power domains names this resource. -/
def ListsResource (i k : Nat) (resource : Resource) : Prop :=
  ∃ node args, doc.HasEntry argumentRule listProperty i k (some ⟨node, resource.id :: args⟩)

/-- The entry at an index of a node's list of power domains is an empty one. -/
def ListsNothing (i k : Nat) : Prop := doc.HasEntry argumentRule listProperty i k none

/-! ## Domain trees -/

/-- A usable node below the root that is the top of a domain tree. -/
def DomainTop (i : Nat) : Prop :=
  0 < i ∧ doc.isEnabled i = true ∧ doc.isCompatible i legacyCompatible = true

instance (i : Nat) : Decidable (doc.DomainTop i) :=
  inferInstanceAs (Decidable (0 < i ∧ doc.isEnabled i = true ∧
    doc.isCompatible i legacyCompatible = true))

def InDomainTree (i : Nat) : Prop := ∃ top, doc.DomainTop top ∧ (top = i ∨ doc.Inside top i)

/-- The walk under the legacy policy does not stop at this node: between the top of some domain tree
and the node there is no node directly below the root. -/
def PassedOver (i : Nat) : Prop :=
  ∃ top, doc.DomainTop top ∧ top ≤ i ∧
    ∀ j, top < j → j ≤ i → ∀ depth, doc.depth? j = some depth → 1 < depth

/-! ## Disabling -/

def disable (nodes : List Nat) : Document :=
  nodes.foldl (fun doc i => doc.alter (withValue "status" disabledStatus) id i) doc

end Document

namespace PowerDomain.Policy

/-- A node depends on a resource: it is on the node's chain of domains, or the node's list names it
for a channel that is not switched off. -/
def Depends : Policy → Document → Nat → Resource → Prop
  | legacy, doc, i, resource => resource ∈ (doc.chain i).resources
  | generic, doc, i, resource =>
    ∃ k, doc.ListsResource i k resource ∧
      (Edma.maskBits ≤ k ∨ Edma.isMasked (doc.channelMask i) k = false)

/-- A node's resource is asked for. A list is only gone through up to its first empty entry. -/
def Asks : Policy → Document → Nat → Resource → Prop
  | legacy, doc, i, resource => resource ∈ (doc.chain i).resources
  | generic, doc, i, resource =>
    ∃ k, doc.ListsResource i k resource ∧ Edma.isMasked (doc.channelMask i) k = false ∧
      ∀ m < k, Edma.isMasked (doc.channelMask i) m = false → ¬ doc.ListsNothing i m

/-- The error that looking for a node's resources ends in. -/
def failure? : Policy → Document → Nat → Option TreeError
  | legacy, doc, i => (doc.chain i).failure
  | generic, _, _ => none

/-- The walk stops at a node. -/
def StopsAt : Policy → Document → Nat → Prop
  | legacy, doc, i => ¬ doc.PassedOver i
  | generic, _, _ => True

/-- A node that is to be disabled. -/
structure Restricts (policy : Policy) (owns : Ownership) (doc : Document) (i : Nat) : Prop where
  pos : 0 < i
  lt_size : i < doc.forest.size
  isEnabled : doc.isEnabled i = true
  stopsAt : policy.StopsAt doc i
  asks : ∃ resource, policy.Asks doc i resource ∧ owns resource = false

theorem Asks.depends {policy : Policy} {doc : Document} {i : Nat} {resource : Resource}
    (h : policy.Asks doc i resource) : policy.Depends doc i resource := by
  cases policy with
  | legacy => exact h
  | generic =>
    obtain ⟨k, hlists, hmask, -⟩ := h
    exact ⟨k, hlists, .inr hmask⟩

end PowerDomain.Policy

open PowerDomain

theorem Document.InDomainTree.passedOver {doc : Document} {i : Nat} (h : doc.InDomainTree i) :
    doc.PassedOver i := by
  obtain ⟨top, htop, rfl | ⟨node, hnode, hlt, hle⟩⟩ := h
  · refine ⟨top, htop, Nat.le_refl _, ?_⟩
    intro j hlt hle
    omega
  · refine ⟨top, htop, Nat.le_of_lt hlt, ?_⟩
    intro j hj hji depth hdepth
    have hsize : top < doc.forest.size := by
      rw [← Forest.node?_isSome_iff, ← Document.node?, hnode]
      rfl
    obtain ⟨topDepth, htopDepth⟩ := Option.isSome_iff_exists.1 (Document.depth?_isSome_iff.2 hsize)
    have hpos := Document.one_le_depth htop.1 htopDepth
    have hinside : doc.Inside top j := ⟨node, hnode, hj, by omega⟩
    have := hinside.depth_lt htopDepth hdepth
    omega

/-- Where every domain tree stands directly below the root, nothing but domain trees is passed
over. -/
theorem Document.passedOver_iff_inDomainTree {doc : Document} {i : Nat} (hi : i < doc.forest.size)
    (hflat : ∀ top, doc.DomainTop top → doc.depth? top = some 1) :
    doc.PassedOver i ↔ doc.InDomainTree i := by
  constructor
  · rintro ⟨top, htop, hle, hdeep⟩
    rcases Nat.lt_or_eq_of_le hle with hlt | rfl
    · exact ⟨top, htop, .inr (inside_of_deeper (hflat top htop) hlt hi hdeep)⟩
    · exact ⟨top, htop, .inl rfl⟩
  · exact Document.InDomainTree.passedOver

/-! ## What disabling changes -/

namespace Document

variable {doc : Document}

theorem readAs_status_disabled (properties : List Property) :
    readAs StringList.text (withValue "status" disabledStatus properties) "status" =
      .ok (some (Bytes.ofText "disabled")) := by
  have htext : StringList.text disabledStatus = .ok (Bytes.ofText "disabled") := by rfl
  rw [readAs, valueOf?_withValue]
  dsimp only
  rw [htext]

/-- Disabling a node makes it unusable and no other one. -/
theorem isEnabled_alter {i : Nat} (hi : i < doc.forest.size) (j : Nat) :
    (doc.alter (withValue "status" disabledStatus) id i).isEnabled j =
      (doc.isEnabled j && decide (i ≠ j)) := by
  rw [isEnabled, isEnabled, propertiesAt_alter _ hi]
  by_cases hij : i = j
  · rw [if_pos hij, readAs_status_disabled, decide_eq_false (not_not_intro hij), Bool.and_false]
    simp
  · rw [if_neg hij, decide_eq_true hij, Bool.and_true]

theorem disable_concat (doc : Document) (nodes : List Nat) (i : Nat) :
    doc.disable (nodes ++ [i]) =
      (doc.disable nodes).alter (withValue "status" disabledStatus) id i := by
  rw [disable, disable, List.foldl_append]
  rfl

end Document

namespace SameButStatus

variable {doc doc' : Document}

theorem alter {i : Nat} (value : Bytes) (hi : i < doc.forest.size) :
    SameButStatus doc (doc.alter (withValue "status" value) id i) := by
  refine ⟨Document.outline_alter _ _ _, ?_⟩
  intro j name hname
  rw [Document.value?, Document.value?, Document.propertiesAt_alter _ hi]
  by_cases hij : i = j
  · rw [if_pos hij, valueOf?_withValue_of_ne hname]
  · rw [if_neg hij]

theorem disable {nodes : List Nat} (h : ∀ i ∈ nodes, i < doc.forest.size) :
    SameButStatus doc (doc.disable nodes) := by
  induction nodes generalizing doc with
  | nil => exact .refl doc
  | cons i rest ih =>
    have hfirst : SameButStatus doc (doc.alter (withValue "status" disabledStatus) id i) :=
      .alter _ (h i List.mem_cons_self)
    apply hfirst.trans
    apply ih
    intro j hj
    rw [hfirst.size]
    exact h j (List.mem_cons_of_mem _ hj)

end SameButStatus

theorem Document.isEnabled_disable {doc : Document} {nodes : List Nat}
    (h : ∀ i ∈ nodes, i < doc.forest.size) (j : Nat) :
    (doc.disable nodes).isEnabled j = (doc.isEnabled j && decide (j ∉ nodes)) := by
  induction nodes generalizing doc with
  | nil => simp [disable]
  | cons i rest ih =>
    have hi := h i List.mem_cons_self
    have hrest : ∀ k ∈ rest,
        k < (doc.alter (withValue "status" disabledStatus) id i).forest.size := by
      intro k hk
      rw [(SameButStatus.alter _ hi).size]
      exact h k (List.mem_cons_of_mem _ hk)
    change ((doc.alter (withValue "status" disabledStatus) id i).disable rest).isEnabled j = _
    rw [ih hrest, isEnabled_alter hi, Bool.eq_iff_iff]
    simp only [Bool.and_eq_true, decide_eq_true_eq, List.mem_cons, not_or]
    tauto

/-- The properties of other nodes stay as they are. -/
theorem Document.propertiesAt_disable {doc : Document} {nodes : List Nat}
    (hlt : ∀ k ∈ nodes, k < doc.forest.size) {i : Nat} (hnot : i ∉ nodes) :
    (doc.disable nodes).propertiesAt i = doc.propertiesAt i := by
  induction nodes generalizing doc with
  | nil => rfl
  | cons j rest ih =>
    rw [List.mem_cons, not_or] at hnot
    have hj := hlt j List.mem_cons_self
    have hrest : ∀ k ∈ rest,
        k < (doc.alter (withValue "status" disabledStatus) id j).forest.size := by
      intro k hk
      rw [(SameButStatus.alter _ hj).size]
      exact hlt k (List.mem_cons_of_mem _ hk)
    change ((doc.alter (withValue "status" disabledStatus) id j).disable rest).propertiesAt i = _
    rw [ih hrest hnot.2, propertiesAt_alter _ hj, if_neg (Ne.symm hnot.1)]

namespace SameButStatus

variable {doc doc' : Document}

theorem domain? (h : SameButStatus doc doc') (i : Nat) : doc'.domain? i = doc.domain? i := by
  have hreg : Bytes.ofText "reg" ≠ Bytes.ofText "status" := by simp
  rw [Document.domain?, Document.domain?, h.cell i (by simp [listProperty])]
  simp only [h.findRaw, h.cell _ hreg]

theorem chainFrom (h : SameButStatus doc doc') (links i : Nat) :
    doc'.chainFrom links i = doc.chainFrom links i := by
  induction links generalizing i with
  | zero => rfl
  | succ links ih =>
    rw [Document.chainFrom, Document.chainFrom, h.domain?]
    simp only [h.isCompatible, ih]

theorem channelMask (h : SameButStatus doc doc') (i : Nat) :
    doc'.channelMask i = doc.channelMask i := by
  rw [Document.channelMask, Document.channelMask, h.cell i (by simp)]

/-- The number of arguments of an entry does not come from a status. -/
theorem declaredBy_ne {property : Bytes} (h : argumentRule = .declaredBy property) :
    property ≠ Bytes.ofText "status" := by
  cases h
  simp

theorem hasListEntry (h : SameButStatus doc doc') {i k : Nat} {entry : Option Reference} :
    doc'.HasEntry argumentRule listProperty i k entry ↔
      doc.HasEntry argumentRule listProperty i k entry :=
  h.hasEntry (fun _ => declaredBy_ne) (by simp [listProperty])

theorem asks (h : SameButStatus doc doc') (policy : Policy) {i : Nat} {resource : Resource} :
    policy.Asks doc' i resource ↔ policy.Asks doc i resource := by
  cases policy with
  | legacy => simp only [Policy.Asks, Document.chain, h.chainFrom]
  | generic =>
    simp only [Policy.Asks, Document.ListsResource, Document.ListsNothing, h.channelMask,
      h.hasListEntry]

theorem failure? (h : SameButStatus doc doc') (policy : Policy) (i : Nat) :
    policy.failure? doc' i = policy.failure? doc i := by
  cases policy with
  | legacy => simp only [Policy.failure?, Document.chain, h.chainFrom]
  | generic => rfl

end SameButStatus

end BootTree
