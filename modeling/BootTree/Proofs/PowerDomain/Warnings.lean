import BootTree.Proofs.Document.Malformed
import BootTree.Proofs.PowerDomain.Demand

/-!
# BootTree.Proofs.PowerDomain.Warnings

What the fixup of power domains warns of on behalf of a node: malformed values that the node carries,
or that it comes to by its references. A list of domains that is not made of whole cells, a malformed
status and a malformed phandle have no warning of their own: the first reads like an empty list, the
second like that of a disabled node, and the third is an error of whoever looks for a phandle.

* `Document.OddLink`, `Document.OddChain`: malformed references to a power domain, and chains that come
  to one.
* `Document.OddList`: malformed lists, by a mask, an entry or missing arguments.
* `PowerDomain.Policy.Warns`: what is warned of.
* `Tree.Stores.note_mem_demand`: the plan for a node has these warnings.
* `PowerDomain.mem_records_firstUnowned`: they are logged if no resource is met that is not owned.
-/

namespace BootTree

open PowerDomain

/-! ## Names -/

/-- The name of a node as the log has it. -/
def Document.nameText (doc : Document) (i : Nat) : String :=
  (doc.outline[i]?.bind fun entry => Bytes.text? entry.1).getD "<unnamed>"

theorem Tree.Stores.nameText {tree : Tree} {doc : Document} {i : Nat} {ref : NodeRef}
    (h : tree.Stores doc) (href : tree.nodes[i]? = some ref) :
    tree.nameText ref = doc.nameText i := by
  obtain ⟨node, pre, body, inner, post, hat⟩ := h.exists_storedAt href
  obtain ⟨depth, hentry⟩ := Forest.outline_of_node? 0 hat.cut.node?
  rw [Tree.nameText, hat.nodeName, Document.nameText, Document.outline_eq, hentry]
  rfl

theorem SameButStatus.nameText {doc doc' : Document} (h : SameButStatus doc doc') (i : Nat) :
    doc'.nameText i = doc.nameText i := by
  rw [Document.nameText, Document.nameText, h.outline]

/-! ## Malformed values -/

namespace Document

variable (doc : Document)

/-- A node's reference to its power domain has the wrong length, leads nowhere, or leads to a domain
whose resource is malformed. -/
inductive OddLink (i : Nat) : String → Prop where
  | length {raw : Bytes} : doc.value? i listProperty = some raw → raw.length ≠ 4 →
      OddLink i s!"ignoring {doc.nameText i} power-domains of unexpected length {raw.length}"
  | dangling {target : UInt32} : doc.cell i listProperty = .ok (some target) →
      doc.findRaw target = .ok none →
      OddLink i ("power domain " ++ hex target.toNat ++ s!" of {doc.nameText i} does not exist")
  | resource {target : UInt32} {domain : Nat} {e : TreeError} :
      doc.cell i listProperty = .ok (some target) → doc.findRaw target = .ok (some domain) →
      doc.cell domain "reg" = .error e →
      OddLink i s!"ignoring power domain {doc.nameText domain} with malformed reg: {e.message}"

/-- The chain of domains from a node on comes to a malformed reference, or has no end within so many
references. -/
inductive OddChain (device : Nat) : (links i : Nat) → String → Prop where
  | endless {i : Nat} : OddChain device 0 i
      s!"power domain chain of {doc.nameText device} is too long, ignoring it"
  | here {links i : Nat} {message : String} : doc.OddLink i message →
      OddChain device (links + 1) i message
  | next {links i domain : Nat} {resource : Resource} {message : String} :
      doc.domain? i = .ok (some (domain, resource)) →
      doc.isCompatible domain legacyCompatible = false → OddChain device links domain message →
      OddChain device (links + 1) i message

end Document

namespace Document

variable (doc : Document)

/-- An index of a node's list of domains that is looked at if all resources in front of it are owned:
the channel is not switched off, and no empty entry in front ends the search. -/
def LooksAt (i k : Nat) : Prop :=
  Edma.isMasked (doc.channelMask i) k = false ∧
    ∀ m < k, Edma.isMasked (doc.channelMask i) m = false → ¬ doc.ListsNothing i m

/-- The channel mask of a node with a list of domains is malformed, or the list has a malformed
entry. -/
inductive OddList (i : Nat) : String → Prop where
  | mask {raw : Bytes} {e : TreeError} : doc.value? i listProperty = some raw →
      doc.cell i "dma-channel-mask" = .error e →
      OddList i s!"ignoring malformed dma-channel-mask of {doc.nameText i}: {e.message}"
  | entry {k : Nat} {cells rest : List UInt32} {entries : List (Option Reference)} {e : TreeError} :
      doc.LooksAt i k → doc.cells i listProperty = .ok (some cells) →
      EntriesOf doc argumentRule cells entries rest →
      OddEntry doc argumentRule cells.length rest e → entries.length ≤ k → k < cells.length →
      OddList i s!"parse power-domains of {doc.nameText i} wrong: {e.messageWithCode}"
  | arguments {k node : Nat} : doc.LooksAt i k →
      doc.HasEntry argumentRule listProperty i k (some ⟨node, []⟩) →
      OddList i s!"power-domains entry {k} of {doc.nameText i} has no resource id"

end Document

/-- What the fixup warns of when it looks for the resources of a node. -/
def PowerDomain.Policy.Warns : Policy → Document → Nat → String → Prop
  | legacy, doc, i, message => doc.OddChain i maxChain i message
  | generic, doc, i, message => doc.OddList i message

namespace Document

variable {doc : Document} {i : Nat}

theorem value?_isSome_of_cells {name : Bytes} {cells : List UInt32}
    (h : doc.cells i name = .ok (some cells)) : (doc.value? i name).isSome := by
  obtain ⟨raw, hraw, -⟩ := readAs_eq_some_iff.1 h
  rw [value?, hraw]
  rfl

theorem HasEntry.value?_isSome {rule : ArgumentCount} {property : Bytes} {k : Nat}
    {entry : Option Reference} (h : doc.HasEntry rule property i k entry) :
    (doc.value? i property).isSome := by
  obtain ⟨cells, entries, rest, hcells, -⟩ := h
  exact value?_isSome_of_cells hcells

theorem OddList.value?_isSome {message : String} (h : doc.OddList i message) :
    (doc.value? i listProperty).isSome := by
  cases h with
  | mask hvalue _ => rw [hvalue]; rfl
  | entry _ hcells _ _ _ _ => exact value?_isSome_of_cells hcells
  | arguments _ hentry => exact hentry.value?_isSome

end Document

namespace SameButStatus

variable {doc doc' : Document} {i : Nat} {message : String}

theorem oddLink (h : SameButStatus doc doc') (hodd : doc.OddLink i message) :
    doc'.OddLink i message := by
  have hlist : Bytes.ofText listProperty ≠ Bytes.ofText "status" := by simp [listProperty]
  have hreg : Bytes.ofText "reg" ≠ Bytes.ofText "status" := by simp
  cases hodd with
  | length hvalue hlength =>
    rw [← h.nameText]
    exact .length ((h.value? i _ hlist).trans hvalue) hlength
  | dangling hcell hfound =>
    rw [← h.nameText]
    exact .dangling ((h.cell i hlist).trans hcell) ((h.findRaw _).trans hfound)
  | resource hcell hfound hresource =>
    rw [← h.nameText]
    exact .resource ((h.cell i hlist).trans hcell) ((h.findRaw _).trans hfound)
      ((h.cell _ hreg).trans hresource)

theorem oddChain (h : SameButStatus doc doc') {device links : Nat}
    (hodd : doc.OddChain device links i message) : doc'.OddChain device links i message := by
  induction hodd with
  | endless =>
    rw [← h.nameText]
    exact .endless
  | here hlink => exact .here (h.oddLink hlink)
  | next hdomain htop _ ih =>
    exact .next ((h.domain? _).trans hdomain) ((h.isCompatible _ _).trans htop) ih

theorem oddEntry (h : SameButStatus doc doc') {total : Nat} {cells : List UInt32} {e : TreeError}
    (hodd : OddEntry doc argumentRule total cells e) : OddEntry doc' argumentRule total cells e := by
  cases hodd with
  | reserved hzero hraw => exact .reserved hzero hraw
  | dangling hraw hfound => exact .dangling hraw ((h.findPhandle _).trans hfound)
  | search hraw hfound => exact .search hraw ((h.findPhandle _).trans hfound)
  | count hraw hfound hcount =>
    exact .count hraw ((h.findPhandle _).trans hfound)
      ((h.argumentCount _ fun _ => declaredBy_ne).trans hcount)
  | short hraw hfound hcount hshort =>
    exact .short hraw ((h.findPhandle _).trans hfound)
      ((h.argumentCount _ fun _ => declaredBy_ne).trans hcount) hshort

theorem looksAt (h : SameButStatus doc doc') {k : Nat} (hlooks : doc.LooksAt i k) :
    doc'.LooksAt i k := by
  rw [Document.LooksAt, h.channelMask]
  refine ⟨hlooks.1, ?_⟩
  intro m hm hmask hnothing
  exact hlooks.2 m hm hmask (h.hasListEntry.1 hnothing)

theorem oddList (h : SameButStatus doc doc') (hodd : doc.OddList i message) :
    doc'.OddList i message := by
  have hlist : Bytes.ofText listProperty ≠ Bytes.ofText "status" := by simp [listProperty]
  cases hodd with
  | mask hvalue hmask =>
    rw [← h.nameText]
    exact .mask ((h.value? i _ hlist).trans hvalue) ((h.cell i (by simp)).trans hmask)
  | entry hlooks hcells hentries hbad hle hlt =>
    rw [← h.nameText]
    exact .entry (h.looksAt hlooks) ((h.cells i hlist).trans hcells)
      (h.entriesOf (fun _ => declaredBy_ne) hentries) (h.oddEntry hbad) hle hlt
  | arguments hlooks hentry =>
    rw [← h.nameText]
    exact .arguments (h.looksAt hlooks) (h.hasListEntry.2 hentry)

theorem warns (h : SameButStatus doc doc') {policy : Policy} (hwarns : policy.Warns doc i message) :
    policy.Warns doc' i message := by
  cases policy with
  | legacy => exact h.oddChain hwarns
  | generic => exact h.oddList hwarns

end SameButStatus

/-! ## The plan for a node -/

theorem Document.domain?_of_oddLink {doc : Document} {i : Nat} {message : String}
    (h : doc.OddLink i message) : doc.domain? i = .ok none := by
  cases h with
  | length hvalue hlength =>
    rw [domain?, cell, readAs, ← value?, hvalue]
    dsimp only
    rw [singleCell_of_length_ne hlength]
  | dangling hcell hfound =>
    rw [domain?, hcell]
    dsimp only
    rw [hfound]
  | resource hcell hfound hresource =>
    rw [domain?, hcell]
    dsimp only
    rw [hfound]
    dsimp only
    rw [hresource]

/-- A chain that is warned of does not end in an error. -/
theorem Document.OddChain.failure {doc : Document} {device links i : Nat} {message : String}
    (h : doc.OddChain device links i message) : (doc.chainFrom links i).failure = none := by
  induction h with
  | endless => rfl
  | here hlink =>
    rw [chainFrom, domain?_of_oddLink hlink]
  | next hdomain htop _ ih =>
    rw [chainFrom, hdomain]
    dsimp only
    rw [if_neg (by simp [htop])]
    exact ih

/-- A single cell is read from four bytes. -/
theorem Document.value?_of_cell {doc : Document} {i : Nat} {name : Bytes} {cell : UInt32}
    (h : doc.cell i name = .ok (some cell)) :
    ∃ raw, doc.value? i name = some raw ∧ raw.length = 4 ∧ (Bytes.word? raw).getD 0 = cell := by
  rw [Document.cell, readAs, ← value?] at h
  cases hvalue : doc.value? i name with
  | none => rw [hvalue] at h; cases h
  | some raw =>
    rw [hvalue] at h
    dsimp only at h
    by_cases hlength : raw.length = 4
    · rw [singleCell_of_length hlength] at h
      cases h
      exact ⟨raw, rfl, hlength, rfl⟩
    · rw [singleCell_of_length_ne hlength] at h
      cases h

namespace Tree.Stores

variable {tree : Tree} {doc : Document} {i : Nat} {ref : NodeRef} {message : String}

theorem link_of_oddLink (h : tree.Stores doc) (href : tree.nodes[i]? = some ref)
    (hodd : doc.OddLink i message) :
    link tree ref = .ends (some ⟨.warn, logTarget, message⟩) := by
  rw [link, h.value_eq href, h.nameText href]
  cases hodd with
  | length hvalue hlength =>
    rw [hvalue]
    exact if_pos hlength
  | dangling hcell hfound =>
    obtain ⟨raw, hvalue, hlength, rfl⟩ := Document.value?_of_cell hcell
    rw [hvalue]
    dsimp only
    rw [if_neg (not_not_intro hlength), h.findRaw, hfound]
    rfl
  | resource hcell hfound hresource =>
    obtain ⟨raw, hvalue, hlength, rfl⟩ := Document.value?_of_cell hcell
    obtain ⟨node, hnode⟩ := h.exists_of_findRaw hfound
    rw [hvalue]
    dsimp only
    rw [if_neg (not_not_intro hlength), h.findRaw, hfound]
    dsimp only [Except.map, Option.bind_some]
    rw [hnode]
    dsimp only
    rw [h.cell hnode, hresource, h.nameText hnode]

theorem note_mem_chainFrom (h : tree.Stores doc) {device : NodeRef} {number links : Nat}
    (hdevice : tree.nodes[number]? = some device) (href : tree.nodes[i]? = some ref)
    (hodd : doc.OddChain number links i message) :
    Step.note ⟨.warn, logTarget, message⟩ ∈ PowerDomain.chainFrom tree device links ref := by
  induction hodd generalizing ref with
  | endless =>
    rw [PowerDomain.chainFrom, h.nameText hdevice]
    exact List.mem_cons_self
  | here hlink =>
    rw [PowerDomain.chainFrom, h.link_of_oddLink href hlink]
    exact List.mem_cons_self
  | next hdomain htop _ ih =>
    rw [PowerDomain.chainFrom]
    rcases h.link_cases href with ⟨e, hbroken, -⟩ | ⟨hnone, -⟩ |
      ⟨domain, node, resource, hfound, hnode, hlink⟩
    · rw [hdomain] at hbroken
      cases hbroken
    · rw [hdomain] at hnone
      cases hnone
    · rw [hdomain, Except.ok.injEq, Option.some.injEq, Prod.mk.injEq] at hfound
      obtain ⟨rfl, rfl⟩ := hfound
      rw [hlink]
      dsimp only
      rw [h.isCompatible hnode, htop, if_neg (by simp)]
      exact List.mem_append_right _ (List.mem_cons_of_mem _ (ih hnode))

end Tree.Stores

/-! ## The plan for a list -/

namespace PowerDomain

variable {target name : String} {mask : UInt32} {list : Except TreeError SlotList}

/-- The plan for one index is part of the plan for a list if no entry in front of it ends the
search. -/
theorem mem_entryDemand_of_mem {start count k : Nat} {step : Step Resource} (hle : start ≤ k)
    (hlt : k < start + count)
    (hgoes : ∀ m, start ≤ m → m < k → Edma.isMasked mask m = false →
      list.bind (·.entry m) ≠ .error .notFound)
    (hstep : step ∈ entryDemand target name mask list [k]) :
    step ∈ entryDemand target name mask list (List.range' start count) := by
  induction count generalizing start with
  | zero => omega
  | succ count ih =>
    rw [List.range'_succ, entryDemand_cons]
    rcases Nat.eq_or_lt_of_le hle with rfl | hbefore
    · exact List.mem_append_left _ hstep
    · have hrest : step ∈ entryDemand target name mask list (List.range' (start + 1) count) :=
        ih hbefore (by omega) (fun m hm => hgoes m (by omega))
      rw [if_neg fun hends => hgoes start (Nat.le_refl _) hbefore hends.1 hends.2]
      exact List.mem_append_right _ hrest

theorem note_mem_entryDemand_of_error {k : Nat} {e : TreeError} (he : e ≠ .notFound)
    (hmask : Edma.isMasked mask k = false) (hentry : list.bind (·.entry k) = .error e) :
    .note ⟨.warn, target, s!"parse power-domains of {name} wrong: {e.messageWithCode}"⟩ ∈
      entryDemand target name mask list [k] := by
  rw [entryDemand, hmask, if_neg (by simp), hentry]
  cases e with
  | notFound => exact absurd rfl he
  | _ => exact List.mem_cons_self

theorem note_mem_entryDemand_of_nil {k : Nat} {node : NodeRef}
    (hmask : Edma.isMasked mask k = false) (hentry : list.bind (·.entry k) = .ok (node, [])) :
    .note ⟨.warn, target, s!"power-domains entry {k} of {name} has no resource id"⟩ ∈
      entryDemand target name mask list [k] := by
  rw [entryDemand, hmask, if_neg (by simp), hentry]
  exact List.mem_cons_self

end PowerDomain

namespace Tree.Stores

variable {tree : Tree} {doc : Document} {i : Nat} {ref : NodeRef} {message : String}

/-- An index that the document's list has is looked at in the tree's list as well. -/
theorem entry_ne_notFound (h : tree.Stores doc) (href : tree.nodes[i]? = some ref) {list : SlotList}
    (hlist : tree.readSlots ref listProperty argumentRule = .ok list) {k m : Nat}
    (hlooks : doc.LooksAt i k) (hm : m < k)
    (hmask : Edma.isMasked (doc.channelMask i) m = false) (hslots : m < list.slots.length) :
    list.entry m ≠ .error .notFound := by
  intro hentry
  rw [SlotList.entry_eq_notFound_iff hslots, h.readSlots_getElem? href hlist] at hentry
  obtain ⟨entry, hentry, hslot⟩ := hentry
  cases entry with
  | none => exact hlooks.2 m hm hmask hentry
  | some reference => cases hslot

theorem note_mem_list (h : tree.Stores doc) (href : tree.nodes[i]? = some ref) {k : Nat}
    (hlooks : doc.LooksAt i k) {list : SlotList}
    (hlist : tree.readSlots ref listProperty argumentRule = .ok list)
    (hk : k < listLength tree ref)
    (hslots : ∀ m < k, list.slots.length ≤ m → list.entry m ≠ .error .notFound)
    {step : Step Resource}
    (hstep : step ∈ entryDemand logTarget (doc.nameText i) (doc.channelMask i) (.ok list) [k]) :
    step ∈ listDemand tree ref := by
  have hall : step ∈ entryDemand logTarget (doc.nameText i) (doc.channelMask i) (.ok list)
      (List.range (listLength tree ref)) := by
    rw [List.range_eq_range']
    apply mem_entryDemand_of_mem (Nat.zero_le k) (by omega) _ hstep
    intro m _ hm hmask
    by_cases hlt : m < list.slots.length
    · exact h.entry_ne_notFound href hlist hlooks hm hmask hlt
    · exact hslots m hm (Nat.le_of_not_lt hlt)
  rw [listDemand, h.cell href, h.nameText href, hlist]
  rw [Document.channelMask] at hall
  cases hmask : doc.cell i "dma-channel-mask" with
  | error e =>
    rw [hmask] at hall
    exact List.mem_append_right _ hall
  | ok mask =>
    rw [hmask] at hall
    exact hall

theorem note_mem_listDemand (h : tree.Stores doc) (href : tree.nodes[i]? = some ref)
    (hodd : doc.OddList i message) :
    .note ⟨.warn, logTarget, message⟩ ∈ listDemand tree ref := by
  cases hodd with
  | mask _ hmask =>
    rw [listDemand, h.cell href, hmask, h.nameText href]
    exact List.mem_cons_self
  | @entry k cells rest entries e hlooks hcells hentries hbad hle hlt =>
    have hlist : tree.readSlots ref listProperty argumentRule =
        .ok ⟨entries.map tree.slotOf, some e⟩ := by
      rw [readSlots, h.cells href, hcells]
      dsimp only
      rw [h.slotsFrom_of_entriesOf hentries, h.slotsFrom_of_oddEntry hbad, List.append_nil]
    have hbehind : ∀ m, entries.length ≤ m →
        SlotList.entry ⟨entries.map tree.slotOf, some e⟩ m = .error e := by
      intro m hm
      rw [SlotList.entry, List.getElem?_eq_none (by rwa [List.length_map])]
    apply h.note_mem_list href hlooks hlist
    · rw [h.listLength_eq href, hcells]
      exact hlt
    · intro m _ hm
      rw [List.length_map] at hm
      rw [hbehind m hm]
      simpa using hbad.ne_notFound
    · exact note_mem_entryDemand_of_error hbad.ne_notFound hlooks.1 (hbehind k hle)
  | @arguments k node hlooks hentry =>
    obtain ⟨cells, entries, rest, hcells, hentries, hk⟩ := id hentry
    obtain ⟨list, hlist⟩ : ∃ list, tree.readSlots ref listProperty argumentRule = .ok list := by
      rw [readSlots, h.cells href, hcells]
      exact ⟨_, rfl⟩
    have hslot := (h.readSlots_getElem? href hlist).2 ⟨_, hentry, rfl⟩
    obtain ⟨hslots, -⟩ := List.getElem?_eq_some_iff.1 hslot
    apply h.note_mem_list href hlooks hlist
    · have := hentries.length_le
      obtain ⟨hlt, -⟩ := List.getElem?_eq_some_iff.1 hk
      rw [h.listLength_eq href, hcells]
      dsimp only
      omega
    · intro m hm hbehind
      omega
    · exact note_mem_entryDemand_of_nil hlooks.1 (SlotList.entry_eq_ok_iff.2 hslot)

/-- The plan for a node has a line for everything that is warned of, and no error. -/
theorem note_mem_demand (h : tree.Stores doc) (href : tree.nodes[i]? = some ref) {policy : Policy}
    (hwarns : policy.Warns doc i message) :
    .note ⟨.warn, logTarget, message⟩ ∈ policy.demand tree ref ∧
      (policy.demand tree ref).failure? = none := by
  rw [h.failure?_demand href]
  cases policy with
  | legacy => exact ⟨h.note_mem_chainFrom href href hwarns, hwarns.failure⟩
  | generic => exact ⟨h.note_mem_listDemand href hwarns, rfl⟩

end Tree.Stores

/-! ## Carrying out the plan -/

theorem Event.mem_records {events : List Event} {record : Log.Record} :
    record ∈ Event.records events ↔ .logged record ∈ events := by
  rw [Event.records, List.mem_filterMap]
  constructor
  · rintro ⟨event, hmem, hrecord⟩
    cases event with
    | logged other => cases hrecord; exact hmem
    | _ => cases hrecord
  · intro hmem
    exact ⟨_, hmem, rfl⟩

/-- If all that is asked for is owned, a plan without an error is carried out to its end. -/
theorem PowerDomain.mem_records_firstUnowned {owns : Ownership} {plan : Plan Resource}
    {record : Log.Record} (howned : ∀ resource ∈ plan.requests, owns resource = true)
    (hfailure : plan.failure? = none) (hnote : .note record ∈ plan) :
    record ∈ Event.records (firstUnowned owns plan).events := by
  rw [Event.mem_records]
  induction plan with
  | nil => cases hnote
  | cons step rest ih =>
    cases step with
    | note other =>
      rw [firstUnowned, Reported.events_bind]
      rcases List.mem_cons.1 hnote with heq | hmem
      · cases heq
        exact List.mem_append_left _ List.mem_cons_self
      · exact List.mem_append_right _ (ih howned hfailure hmem)
    | fail e => cases hfailure
    | ask resource =>
      have hfirst : owns resource = true := howned resource List.mem_cons_self
      have hrest : ∀ other ∈ Plan.requests rest, owns other = true := by
        intro other hother
        exact howned other (List.mem_cons_of_mem _ hother)
      rw [firstUnowned, Reported.events_bind, hfirst, if_pos rfl]
      rcases List.mem_cons.1 hnote with heq | hmem
      · cases heq
      · exact List.mem_append_right _ (ih hrest hfailure hmem)

end BootTree
