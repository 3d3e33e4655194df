import BootTree.Proofs.Document.Listing
import BootTree.Proofs.PowerDomain.Legacy

/-!
# BootTree.Proofs.PowerDomain.Chains

The chain of power domains of a node, by what the document says. A node refers to its domain with
the phandle of that alone, and the domain may refer to a further one. Nothing keeps such references
from going in a circle, so a chain has at most so many domains.

* `Document.RefersTo`, `Document.StandsFor`: a node and its domain, a domain and its resource.
* `Document.DomainChain`: the domains of a node in order; `Document.exists_domainChain` and
  `Document.DomainChain.unique`: every node has exactly one chain.
* `Document.DomainChain.resources`: these are the resources that are asked for.
* `PowerDomain.AsksAlong`: asking for resources in order up to one that is not owned.
* `Tree.Stores.firstUnowned_domainChain`: what is answered and asked for a node of a stored tree.
-/

namespace BootTree

open PowerDomain

namespace Document

/-! ## Chains -/

section Chains

variable (doc : Document)

/-- A node refers to its power domain: its list of domains is a single phandle, and the domain is
the first node that has it. -/
def RefersTo (i domain : Nat) : Prop :=
  ∃ phandle, doc.value? i listProperty = some (Bytes.word phandle.raw) ∧
    doc.FirstWith phandle domain

/-- The resource of a power domain: the one in a `reg` of a single cell, or resource zero if there
is no `reg`. The number that means no resource is none. -/
inductive StandsFor (domain : Nat) : Resource → Prop where
  | missing : doc.value? domain "reg" = none → StandsFor domain ⟨0⟩
  | cell {resource : Resource} : doc.value? domain "reg" = some (Bytes.word resource.id) →
      resource ≠ Resource.unassigned → StandsFor domain resource

/-- The chain of power domains of a node, with their resources, if there is room for so many. It
ends in front of a domain that is not referred to or that stands for no resource, and behind the top
of a domain tree. -/
inductive DomainChain : (room i : Nat) → List (Nat × Resource) → Prop where
  | full {i : Nat} : DomainChain 0 i []
  | ends {room i : Nat} :
      (∀ domain resource, doc.RefersTo i domain → ¬ doc.StandsFor domain resource) →
      DomainChain (room + 1) i []
  | top {room i domain : Nat} {resource : Resource} : doc.RefersTo i domain →
      doc.StandsFor domain resource → doc.isCompatible domain legacyCompatible = true →
      DomainChain (room + 1) i [(domain, resource)]
  | next {room i domain : Nat} {resource : Resource} {chain : List (Nat × Resource)} :
      doc.RefersTo i domain → doc.StandsFor domain resource →
      doc.isCompatible domain legacyCompatible = false → DomainChain room domain chain →
      DomainChain (room + 1) i ((domain, resource) :: chain)

end Chains

variable {doc : Document} {i domain : Nat} {resource : Resource}

theorem RefersTo.unique {other : Nat} (h : doc.RefersTo i domain) (h' : doc.RefersTo i other) :
    domain = other := by
  obtain ⟨phandle, hvalue, hfirst⟩ := h
  obtain ⟨phandle', hvalue', hfirst'⟩ := h'
  have hraw := cell_eq_some_iff.2 hvalue
  rw [cell_eq_some_iff.2 hvalue', Except.ok.injEq, Option.some.injEq] at hraw
  rw [Phandle.eq_of_raw_eq hraw] at hfirst'
  exact hfirst.unique hfirst'

theorem StandsFor.unique {other : Resource} (h : doc.StandsFor domain resource)
    (h' : doc.StandsFor domain other) : resource = other := by
  cases h with
  | missing hnone =>
    cases h' with
    | missing _ => rfl
    | cell hvalue _ => rw [hnone] at hvalue; cases hvalue
  | cell hvalue _ =>
    cases h' with
    | missing hnone => rw [hnone] at hvalue; cases hvalue
    | cell hvalue' _ =>
      have hid := cell_eq_some_iff.2 hvalue
      rw [cell_eq_some_iff.2 hvalue', Except.ok.injEq, Option.some.injEq] at hid
      exact (congrArg Resource.mk hid).symm

/-- Wherever references lead, also in a circle, a node has a chain. -/
theorem exists_domainChain (doc : Document) (room i : Nat) :
    ∃ chain, doc.DomainChain room i chain := by
  induction room generalizing i with
  | zero => exact ⟨[], .full⟩
  | succ room ih =>
    by_cases hlink : ∃ domain resource, doc.RefersTo i domain ∧ doc.StandsFor domain resource
    · obtain ⟨domain, resource, hrefers, hstands⟩ := hlink
      cases htop : doc.isCompatible domain legacyCompatible with
      | true => exact ⟨_, .top hrefers hstands htop⟩
      | false =>
        obtain ⟨chain, hchain⟩ := ih domain
        exact ⟨_, .next hrefers hstands htop hchain⟩
    · refine ⟨[], .ends ?_⟩
      intro domain resource hrefers hstands
      exact hlink ⟨domain, resource, hrefers, hstands⟩

theorem DomainChain.unique {room : Nat} {chain other : List (Nat × Resource)}
    (h : doc.DomainChain room i chain) (h' : doc.DomainChain room i other) : chain = other := by
  induction h generalizing other with
  | full =>
    cases h'
    rfl
  | ends hends =>
    cases h' with
    | ends _ => rfl
    | top hrefers hstands _ => exact absurd hstands (hends _ _ hrefers)
    | next hrefers hstands _ _ => exact absurd hstands (hends _ _ hrefers)
  | top hrefers hstands htop =>
    cases h' with
    | ends hends => exact absurd hstands (hends _ _ hrefers)
    | top hrefers' hstands' _ =>
      obtain rfl := hrefers.unique hrefers'
      obtain rfl := hstands.unique hstands'
      rfl
    | next hrefers' _ htop' _ =>
      obtain rfl := hrefers.unique hrefers'
      rw [htop] at htop'
      cases htop'
  | next hrefers hstands htop _ ih =>
    cases h' with
    | ends hends => exact absurd hstands (hends _ _ hrefers)
    | top hrefers' _ htop' =>
      obtain rfl := hrefers.unique hrefers'
      rw [htop] at htop'
      cases htop'
    | next hrefers' hstands' _ hchain' =>
      obtain rfl := hrefers.unique hrefers'
      obtain rfl := hstands.unique hstands'
      rw [ih hchain']

theorem DomainChain.length_le {room : Nat} {chain : List (Nat × Resource)}
    (h : doc.DomainChain room i chain) : chain.length ≤ room := by
  induction h with
  | full => exact Nat.le_refl 0
  | ends _ => exact Nat.zero_le _
  | top _ _ _ => exact Nat.le_add_left 1 _
  | next _ _ _ _ ih => exact Nat.succ_le_succ ih

/-! ## Resources that are asked for -/

theorem PhandlesAreCells.findRaw_eq_some_iff (h : doc.PhandlesAreCells) {target : UInt32} :
    doc.findRaw target = .ok (some domain) ↔
      ∃ phandle : Phandle, phandle.raw = target ∧ doc.FirstWith phandle domain := by
  rw [Document.findRaw]
  cases hraw : Phandle.ofRaw? target with
  | none =>
    constructor
    · rintro ⟨⟩
    · rintro ⟨phandle, rfl, -⟩
      rw [Phandle.ofRaw?_eq_some_iff.2 rfl] at hraw
      cases hraw
  | some phandle =>
    rw [Phandle.ofRaw?_eq_some_iff] at hraw
    subst hraw
    rw [h.findPhandle_eq_some_iff]
    constructor
    · intro hfirst
      exact ⟨phandle, rfl, hfirst⟩
    · rintro ⟨other, hother, hfirst⟩
      rwa [Phandle.eq_of_raw_eq hother] at hfirst

theorem PhandlesAreCells.refersTo_iff (h : doc.PhandlesAreCells) :
    doc.RefersTo i domain ↔
      ∃ target, doc.cell i listProperty = .ok (some target) ∧
        doc.findRaw target = .ok (some domain) := by
  simp only [RefersTo, h.findRaw_eq_some_iff, cell_eq_some_iff]
  constructor
  · rintro ⟨phandle, hvalue, hfirst⟩
    exact ⟨phandle.raw, hvalue, phandle, rfl, hfirst⟩
  · rintro ⟨_, hvalue, phandle, rfl, hfirst⟩
    exact ⟨phandle, hvalue, hfirst⟩

theorem standsFor_iff :
    doc.StandsFor domain resource ↔
      ∃ reg, doc.cell domain "reg" = .ok reg ∧ ⟨reg.getD 0⟩ = resource ∧
        resource ≠ Resource.unassigned := by
  constructor
  · rintro (hnone | ⟨hvalue, hresource⟩)
    · exact ⟨none, cell_eq_none_iff.2 hnone, rfl, by decide⟩
    · exact ⟨some resource.id, cell_eq_some_iff.2 hvalue, rfl, hresource⟩
  · rintro ⟨reg, hreg, rfl, hresource⟩
    cases reg with
    | none => exact .missing (cell_eq_none_iff.1 hreg)
    | some id => exact .cell (cell_eq_some_iff.1 hreg) hresource

/-- The domain of a node and its resource, by what the properties of the two are. -/
theorem PhandlesAreCells.domain?_eq_some_iff (h : doc.PhandlesAreCells) :
    doc.domain? i = .ok (some (domain, resource)) ↔
      doc.RefersTo i domain ∧ doc.StandsFor domain resource := by
  rw [h.refersTo_iff, standsFor_iff, domain?]
  constructor
  · intro hfound
    split at hfound
    · cases hfound
    · cases hfound
    · rename_i target htarget
      split at hfound
      · cases hfound
      · cases hfound
      · rename_i found hsearch
        split at hfound
        · cases hfound
        · rename_i reg hreg
          split at hfound
          · cases hfound
          · rename_i hresource
            cases hfound
            exact ⟨⟨target, htarget, hsearch⟩, reg, hreg, rfl, hresource⟩
  · rintro ⟨⟨target, htarget, hsearch⟩, reg, hreg, rfl, hresource⟩
    rw [htarget]
    dsimp only
    rw [hsearch]
    dsimp only
    rw [hreg]
    dsimp only
    rw [if_neg hresource]

/-- The resources on the chain of a node are those that are asked for in its place. -/
theorem DomainChain.resources (h : doc.PhandlesAreCells) {room : Nat}
    {chain : List (Nat × Resource)} (hchain : doc.DomainChain room i chain) :
    (doc.chainFrom room i).resources = chain.map Prod.snd := by
  induction hchain with
  | full => rfl
  | @ends room i hends =>
    obtain ⟨found, hfound⟩ := h.domain?_isOk i
    cases found with
    | none => rw [chainFrom, hfound]; rfl
    | some link =>
      obtain ⟨hrefers, hstands⟩ := h.domain?_eq_some_iff.1 hfound
      exact absurd hstands (hends _ _ hrefers)
  | top hrefers hstands htop =>
    rw [chainFrom, h.domain?_eq_some_iff.2 ⟨hrefers, hstands⟩]
    dsimp only
    rw [if_pos htop]
    rfl
  | next hrefers hstands htop _ ih =>
    rw [chainFrom, h.domain?_eq_some_iff.2 ⟨hrefers, hstands⟩]
    dsimp only
    rw [if_neg (by simp [htop]), ih, List.map_cons]

end Document

namespace PowerDomain

/-! ## Asking in order -/

/-- What asking for some resources in order comes to: the first one that is not owned, if there is
one, with all that were asked for on the way. -/
inductive AsksAlong (owns : Ownership) (resources : List Resource) :
    Option Resource → List Resource → Prop where
  | unowned {front rest : List Resource} {resource : Resource} :
      resources = front ++ resource :: rest → (∀ r ∈ front, owns r = true) →
      owns resource = false → AsksAlong owns resources (some resource) (front ++ [resource])
  | owned : (∀ r ∈ resources, owns r = true) → AsksAlong owns resources none resources

theorem AsksAlong.cons {owns : Ownership} {first : Resource} {resources asked : List Resource}
    {answer : Option Resource} (hfirst : owns first = true)
    (h : AsksAlong owns resources answer asked) :
    AsksAlong owns (first :: resources) answer (first :: asked) := by
  cases h with
  | @unowned front rest resource hsplit hfront hresource =>
    have hall : ∀ r ∈ first :: front, owns r = true := List.forall_mem_cons.2 ⟨hfirst, hfront⟩
    exact .unowned (congrArg (first :: ·) hsplit) hall hresource
  | owned hall => exact .owned (List.forall_mem_cons.2 ⟨hfirst, hall⟩)

theorem eq_takeWhile_of_unowned {owns : Ownership} {resources front rest : List Resource}
    {resource : Resource} (hsplit : resources = front ++ resource :: rest)
    (hfront : ∀ r ∈ front, owns r = true) (hresource : owns resource = false) :
    front = resources.takeWhile owns := by
  rw [hsplit, List.takeWhile_append_of_pos hfront, List.takeWhile_cons_of_neg (by simp [hresource]),
    List.append_nil]

theorem AsksAlong.unique {owns : Ownership} {resources asked asked' : List Resource}
    {answer answer' : Option Resource} (h : AsksAlong owns resources answer asked)
    (h' : AsksAlong owns resources answer' asked') : answer = answer' ∧ asked = asked' := by
  cases h with
  | unowned hsplit hfront hresource =>
    cases h' with
    | unowned hsplit' hfront' hresource' =>
      obtain rfl := (eq_takeWhile_of_unowned hsplit hfront hresource).trans
        (eq_takeWhile_of_unowned hsplit' hfront' hresource').symm
      obtain ⟨rfl, -⟩ := List.cons.inj (List.append_cancel_left (hsplit.symm.trans hsplit'))
      exact ⟨rfl, rfl⟩
    | owned hall =>
      rw [hall _ (by simp [hsplit])] at hresource
      cases hresource
  | owned hall =>
    cases h' with
    | unowned hsplit _ hresource =>
      rw [hall _ (by simp [hsplit])] at hresource
      cases hresource
    | owned _ => exact ⟨rfl, rfl⟩

/-- A plan that has no error of its own asks for its resources in order. -/
theorem asksAlong_firstUnowned (owns : Ownership) {plan : Plan Resource}
    (h : plan.failure? = none) :
    ∃ answer, (firstUnowned owns plan).value = .ok answer ∧
      AsksAlong owns plan.requests answer (Event.queries (firstUnowned owns plan).events) := by
  have hnil : ∀ r ∈ [], owns r = true := List.forall_mem_nil _
  induction plan with
  | nil => exact ⟨none, rfl, .owned hnil⟩
  | cons step rest ih =>
    cases step with
    | note record => exact ih h
    | fail e => cases h
    | ask resource =>
      obtain ⟨answer, hanswer, hasked⟩ := ih h
      rw [firstUnowned, Plan.requests]
      cases howns : owns resource with
      | true => exact ⟨answer, hanswer, hasked.cons howns⟩
      | false => exact ⟨some resource, rfl, .unowned rfl hnil howns⟩

end PowerDomain

/-- **Chains of domains.** Where every phandle is a single cell, what is answered for a node is the
first resource on its chain of domains that is not owned, if there is one, and the resources up to
it are asked for in order; nothing else is asked for. -/
theorem Tree.Stores.firstUnowned_domainChain {tree : Tree} {doc : Document} {i : Nat}
    {ref : NodeRef} (h : tree.Stores doc) (hphandles : doc.PhandlesAreCells) (href : tree.nodes[i]? = some ref)
    (owns : Ownership) :
    ∃ chain, doc.DomainChain 16 i chain ∧ chain.length ≤ 16 ∧
      (∀ other, doc.DomainChain 16 i other → other = chain) ∧
      ∃ answer, (firstUnowned owns (chainDemand tree ref)).value = .ok answer ∧
        AsksAlong owns (chain.map Prod.snd) answer
          (Event.queries (firstUnowned owns (chainDemand tree ref)).events) := by
  obtain ⟨chain, hchain⟩ := doc.exists_domainChain maxChain i
  obtain ⟨hrequests, hfailure⟩ := h.chainFrom ref maxChain href
  rw [hphandles.failure_chainFrom] at hfailure
  rw [hchain.resources hphandles] at hrequests
  refine ⟨chain, hchain, hchain.length_le, fun other hother => hother.unique hchain, ?_⟩
  rw [← hrequests]
  exact asksAlong_firstUnowned owns hfailure

/-! ## Domains that refer to each other -/

namespace PowerDomain

/-- Two domains that refer to each other, the second one without a resource of its own, and a serial
port in the first one. -/
def mutualDocument : Document where
  name := []
  properties := []
  children :=
    .node "serial@5a060000" [⟨listProperty, Cells.encode [7]⟩] .nil
    (.node "PD_DMA" [⟨"phandle", Cells.encode [7]⟩, ⟨"reg", Cells.encode [42]⟩,
      ⟨listProperty, Cells.encode [8]⟩] .nil
    (.node "PD_HSIO" [⟨"linux,phandle", Cells.encode [8]⟩, ⟨listProperty, Cells.encode [7]⟩] .nil
      .nil))

def mutualTree : Tree :=
  mutualDocument.write (StringList.join ["phandle", "linux,phandle", "reg", listProperty]) 0

theorem stores_mutualTree : mutualTree.Stores mutualDocument :=
  Document.stores_write (by decide) rfl 0

/-- However much room there is, the chain fills it. -/
theorem domainChain_mutualDocument (rounds : Nat) {i : Nat} (h : mutualDocument.RefersTo i 2) :
    mutualDocument.DomainChain (2 * rounds) i
      (List.replicate rounds [(2, ⟨42⟩), (3, ⟨0⟩)]).flatten := by
  induction rounds generalizing i with
  | zero => exact .full
  | succ rounds ih =>
    have hdma : mutualDocument.StandsFor 2 ⟨42⟩ := .cell (by decide) (by decide)
    have hhsio : mutualDocument.StandsFor 3 ⟨0⟩ := .missing (by decide)
    have hforth : mutualDocument.RefersTo 2 3 :=
      ⟨⟨8, by decide, by decide⟩, by decide, by decide, by decide⟩
    have hback : mutualDocument.RefersTo 3 2 :=
      ⟨⟨7, by decide, by decide⟩, by decide, by decide, by decide⟩
    exact .next h hdma (by decide) (.next hforth hhsio (by decide) (ih hback))

end PowerDomain

/-- If both are owned, each of them is asked for eight times; if one is not, it is the answer. -/
theorem Tree.Stores.firstUnowned_mutualTree : ∃ port, mutualTree.nodes[1]? = some port ∧
    (firstUnowned (fun _ => true) (chainDemand mutualTree port)).value = .ok none ∧
    Event.queries (firstUnowned (fun _ => true) (chainDemand mutualTree port)).events =
      (List.replicate 8 [⟨42⟩, ⟨0⟩]).flatten ∧
    (firstUnowned (· = ⟨42⟩) (chainDemand mutualTree port)).value = .ok (some ⟨0⟩) ∧
    Event.queries (firstUnowned (· = ⟨42⟩) (chainDemand mutualTree port)).events =
      [⟨42⟩, ⟨0⟩] := by
  have hphandles : mutualDocument.PhandlesAreCells := by decide
  have hrefers : mutualDocument.RefersTo 1 2 :=
    ⟨⟨7, by decide, by decide⟩, by decide, by decide, by decide⟩
  have hchain := domainChain_mutualDocument 8 hrefers
  have hlt : 1 < mutualTree.nodes.length := by
    rw [stores_mutualTree.length_nodes]
    decide
  have hport := List.getElem?_eq_getElem hlt
  refine ⟨_, hport, ?_⟩
  obtain ⟨chain, -, -, hunique, answer, hvalue, hasked⟩ :=
    firstUnowned_domainChain stores_mutualTree hphandles hport fun _ => true
  obtain ⟨chain', -, -, hunique', answer', hvalue', hasked'⟩ :=
    firstUnowned_domainChain stores_mutualTree hphandles hport (· = ⟨42⟩)
  obtain rfl := hunique _ hchain
  obtain rfl := hunique' _ hchain
  obtain ⟨rfl, hqueries⟩ := hasked.unique (.owned fun _ _ => rfl)
  have hfront : ∀ r ∈ ([⟨42⟩] : List Resource), decide (r = ⟨42⟩) = true := by decide
  obtain ⟨rfl, hqueries'⟩ := hasked'.unique (.unowned rfl hfront rfl)
  exact ⟨hvalue, hqueries, hvalue', hqueries'⟩

end BootTree
