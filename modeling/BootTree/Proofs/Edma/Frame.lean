import BootTree.Proofs.Edma.Trimming
import BootTree.Proofs.Fixup.Keeping

/-!
# BootTree.Proofs.Edma.Frame

What taking channels out of a tree leaves alone. A channel map is only asked about its own
resources, it only touches the controllers that its paths lead to, and there only what `Trimmed`
says. If everything is owned then nothing is written at all.

* `Edma.ChannelRange.Guards`: the resources of a range.
* `Edma.keeps_reconcile`: a property of all runs, from the questions and the writes of each range.
* `Edma.queries_reconcile`, `Edma.result_reconcile_of_owned`: two such properties.
* `Tree.Holds.reconcile`: the document after a channel map, node by node.
* `Tree.trimmed_reconcile`: all of it.
-/

namespace BootTree

namespace Edma

/-- The resources that guard the channels of a range. -/
def ChannelRange.Guards (range : ChannelRange) (resource : Resource) : Prop :=
  ∃ k < range.channelCount.toNat, resource = range.startResource.nth (UInt32.ofNat k)

/-! ## Runs -/

section Runs

variable {R : Tree → List Event → Tree → Prop} {owns : Ownership} {range : ChannelRange}

theorem guards_of_mem_maskCandidates {channels mask : UInt32} {c : Candidate}
    (h : c ∈ maskCandidates range channels mask) : range.Guards c.resource := by
  obtain ⟨hle, hlt, -, hresource⟩ := mem_maskCandidates.1 h
  refine ⟨_, ?_, hresource⟩
  omega

theorem guards_of_mem_registerCandidates {registers : List UInt32} {c : Candidate}
    (h : c ∈ registerCandidates range registers) : range.Guards c.resource := by
  obtain ⟨⟨record, index⟩, -, hc⟩ := List.mem_filterMap.1 h
  split at hc
  · obtain ⟨channel, hchannel, rfl⟩ := Option.map_eq_some_iff.1 hc
    unfold ChannelRange.channel? at hchannel
    split at hchannel
    · cases hchannel
    · dsimp only at hchannel
      split at hchannel
      · rename_i hlt
        cases hchannel
        exact ⟨_, UInt32.lt_iff_toNat_lt.1 hlt, by rw [UInt32.ofNat_toNat]⟩
      · cases hchannel
  · cases hc

theorem exists_unowned {candidates : List Candidate} (h : unowned owns candidates ≠ []) :
    ∃ c ∈ candidates, owns c.resource = false := by
  obtain ⟨c, hc⟩ := List.exists_mem_of_ne_nil _ h
  obtain ⟨hmem, howns⟩ := List.mem_filter.1 hc
  exact ⟨c, hmem, by simpa using howns⟩

/-- What has to be known of the questions and the writes of a range. -/
structure StepsKeep (R : Tree → List Event → Tree → Prop) (owns : Ownership)
    (range : ChannelRange) : Prop where
  inspection (verb : String) {candidates : List Candidate} :
    (∀ c ∈ candidates, range.Guards c.resource) →
      ∀ tree, R tree (inspection owns verb candidates) tree
  mask {resource : Resource} : range.Guards resource → owns resource = false →
    ∀ node value, Fixup.Keeps R (update node range.nodePath "dma-channel-mask" value)
  arrays {resource : Resource} : range.Guards resource → owns resource = false →
    ∀ {tree node registers arrays}, readArrays tree node registers = .ok (some arrays) →
      ∀ set, Fixup.KeepsAt R (writeArrays node range.nodePath (arrays.compact set)) tree

theorem keeps_maskChannels (hR : Cumulative R) (h : StepsKeep R owns range) (node : NodeRef) :
    Attempt.Keeps R (maskChannels owns range node) := by
  unfold maskChannels
  refine .bind hR (.ask hR _) ?_
  intro interrupts
  cases interrupts with
  | none => exact .pure hR ()
  | some _ =>
    refine .bind hR (.ask hR _) ?_
    intro channels
    dsimp only
    split
    · exact .pure hR ()
    · refine .bind hR (.ask hR _) ?_
      intro old
      have hguards : ∀ c ∈ maskCandidates range (channels.getD 0) (old.getD 0),
          range.Guards c.resource := fun c => guards_of_mem_maskCandidates
      refine .bind hR (.lift (.tell (h.inspection _ hguards))) ?_
      intro _
      split
      · rename_i hchanged
        have hlost : unowned owns (maskCandidates range (channels.getD 0) (old.getD 0)) ≠ [] := by
          intro hnone
          rw [hnone] at hchanged
          exact hchanged rfl
        obtain ⟨c, hc, howns⟩ := exists_unowned hlost
        exact .lift (h.mask (hguards c hc) howns _ _)
      · exact .pure hR ()

theorem keeps_dropChannels (hR : Cumulative R) (h : StepsKeep R owns range) (node : NodeRef)
    (registers : List UInt32) (granted : Bool) :
    Attempt.Keeps R (dropChannels owns range node registers granted) := by
  intro tree
  unfold dropChannels
  refine .bind hR (Attempt.Keeps.ask hR _ tree) ?_
  intro found hread
  rw [Attempt.result_ask] at hread ⊢
  cases found with
  | none => exact Attempt.Keeps.pure hR () tree
  | some arrays =>
    have hlog (message : String) : Attempt.Keeps R
        (liftM (Fixup.log .trace logTarget message) : Attempt TreeError Unit) :=
      .lift (.log hR _ _ _)
    have hguards : ∀ c ∈ registerCandidates range registers, range.Guards c.resource :=
      fun c => guards_of_mem_registerCandidates
    dsimp only
    refine .bind hR (hlog _ tree) ?_
    intro _ _
    refine .bind hR (hlog _ tree) ?_
    intro _ _
    refine .bind hR (hlog _ tree) ?_
    intro _ _
    refine .bind hR (Attempt.Keeps.lift (.tell (h.inspection _ hguards)) tree) ?_
    intro _ _
    split
    · rename_i hlost
      obtain ⟨c, hc, howns⟩ := exists_unowned hlost
      cases granted with
      | true => exact .lift (h.arrays (hguards c hc) howns hread _)
      | false => exact Attempt.Keeps.lift (.log hR _ _ _) tree
    · exact Attempt.Keeps.pure hR () tree

theorem keeps_reconcileRange (hR : Cumulative R) (h : StepsKeep R owns range) (granted : Bool) :
    Fixup.Keeps R (reconcileRange owns range granted) := by
  unfold reconcileRange
  refine .bind hR (.ask hR _) ?_
  intro node
  rcases node with _ | _ | node
  · exact .log hR _ _ _
  · exact .pure hR ()
  refine .bind hR (.log hR _ _ _) ?_
  intro _
  refine .bind hR (.ask hR _) ?_
  intro registers
  rcases registers with _ | _ | registers
  · exact .log hR _ _ _
  · exact .pure hR ()
  dsimp only
  split
  · refine .bind hR (keeps_maskChannels hR h node) ?_
    intro outcome
    cases outcome with
    | ok _ => exact .pure hR ()
    | error e => exact .log hR _ _ _
  · refine .bind hR (keeps_dropChannels hR h node registers granted) ?_
    intro outcome
    cases outcome with
    | ok _ => exact .pure hR ()
    | error e => exact .log hR _ _ _

theorem keeps_reconcile (hR : Cumulative R) {map : List ChannelRange}
    (h : ∀ range ∈ map, StepsKeep R owns range) (granted : Nat → Bool) :
    Fixup.Keeps R (reconcile owns map granted) := by
  refine .forM hR ?_
  rintro ⟨range, place⟩ hmem
  exact keeps_reconcileRange hR (h range (List.fst_mem_of_mem_zipIdx hmem)) (granted place)

theorem keeps_update (hR : Cumulative R) {node : NodeRef} {path property : String} {value : Bytes}
    (hset : Fixup.Keeps R (Fixup.edit (Tree.setValue node property value)))
    (hgrow : Fixup.Keeps R (Fixup.edit (Tree.grow growIncrement))) :
    Fixup.Keeps R (update node path property value) := by
  unfold update
  refine .bind hR (Attempt.Keeps.withGrowth hR hset hgrow) ?_
  intro outcome
  cases outcome with
  | ok _ => exact .pure hR ()
  | error e => exact .log hR _ _ _

end Runs

/-! ## Questions -/

/-- Nothing else is asked about. -/
def AsksOnly (p : Resource → Prop) (_ : Tree) (events : List Event) (_ : Tree) : Prop :=
  ∀ resource ∈ Event.queries events, p resource

theorem cumulative_asksOnly (p : Resource → Prop) : Cumulative (AsksOnly p) where
  start _ := by
    intro resource hresource
    cases hresource
  append h h' := by
    intro resource hresource
    rw [Event.queries_append] at hresource
    rcases List.mem_append.1 hresource with hmem | hmem
    · exact h resource hmem
    · exact h' resource hmem
  logged _ _ := by
    intro resource hresource
    cases hresource

theorem queries_inspection (owns : Ownership) (verb : String) (candidates : List Candidate) :
    Event.queries (inspection owns verb candidates) = candidates.map Candidate.resource := by
  unfold inspection
  induction candidates with
  | nil => rfl
  | cons c cs ih =>
    rw [List.flatMap_cons, Event.queries_append]
    refine congrArg (c.resource :: ·) ?_
    split
    · exact ih
    · exact ih

theorem queries_reconcile (owns : Ownership) (map : List ChannelRange) (granted : Nat → Bool)
    (tree : Tree) :
    ∀ resource ∈ Event.queries (reconcile owns map granted tree).events,
      ∃ range ∈ map, range.Guards resource := by
  have hR := cumulative_asksOnly fun resource => ∃ range ∈ map, range.Guards resource
  have hedit {α : Type} (e : Edit α) : Fixup.Keeps
      (AsksOnly fun resource => ∃ range ∈ map, range.Guards resource) (Fixup.edit e) :=
    .edit (fun tree _ _ _ => hR.start tree) (fun tree _ _ _ => hR.start tree)
  refine keeps_reconcile hR ?_ granted tree
  intro range hrange
  refine ⟨?_, ?_, ?_⟩
  · intro verb candidates hguards _ resource hresource
    rw [queries_inspection] at hresource
    obtain ⟨c, hc, rfl⟩ := List.mem_map.1 hresource
    exact ⟨range, hrange, hguards c hc⟩
  · intro _ _ _ node value
    exact keeps_update hR (hedit _) (hedit _)
  · intro _ _ _ tree node registers arrays _ set
    refine Fixup.Keeps.forM hR ?_ tree
    intro write _
    exact keeps_update hR (hedit _) (hedit _)

/-! ## Where everything is owned -/

theorem cumulative_unchanged : Cumulative fun tree _ tree' => tree' = tree where
  start _ := rfl
  append h h' := h'.trans h
  logged _ _ := rfl

theorem result_reconcile_of_owned {owns : Ownership} {map : List ChannelRange}
    (h : ∀ range ∈ map, ∀ resource, range.Guards resource → owns resource = true)
    (granted : Nat → Bool) (tree : Tree) :
    (Fixup.result (reconcile owns map granted) tree).2 = tree := by
  refine keeps_reconcile cumulative_unchanged ?_ granted tree
  intro range hrange
  have hnever {resource : Resource} (hguards : range.Guards resource)
      (hunowned : owns resource = false) : False := by
    rw [h range hrange resource hguards] at hunowned
    cases hunowned
  exact ⟨fun _ _ _ _ => rfl, fun hguards hunowned => (hnever hguards hunowned).elim,
    fun hguards hunowned => (hnever hguards hunowned).elim⟩

end Edma

namespace Tree

open Edma

variable {tree : Tree} {doc : Document} {owns : Ownership}

/-- Every node goes through the ranges whose path leads to it. -/
theorem Holds.reconcile (h : Holds maskName tree doc) (map : List ChannelRange)
    (granted : Nat → Bool) :
    ∃ doc', tree.SameFrame (Fixup.result (Edma.reconcile owns map granted) tree).2 ∧
      Holds maskName (Fixup.result (Edma.reconcile owns map granted) tree).2 doc' ∧
      doc'.outline = doc.outline ∧ (∀ path, doc'.find? path = doc.find? path) ∧
      ∀ i properties, doc.properties? i = some properties → ∃ properties',
        doc'.properties? i = some properties' ∧
        Settled owns (map.filter fun range => doc.find? range.nodePath = some i)
          properties properties' := by
  induction map generalizing tree doc granted with
  | nil =>
    refine ⟨doc, .refl tree, h, rfl, fun _ => rfl, ?_⟩
    intro i properties hproperties
    exact ⟨properties, hproperties, .nil properties⟩
  | cons range rest ih =>
    obtain ⟨doc₁, hframe₁, hholds₁, hchange⟩ :=
      @Holds.reconcileRange tree doc owns h range (granted 0)
    obtain ⟨doc₂, hframe₂, hholds₂, houtline₂, hfind₂, hproperties₂⟩ :=
      ih hholds₁ fun place => granted (place + 1)
    have hfind₁ (path : Bytes) : doc₁.find? path = doc.find? path := by
      rcases hchange with rfl | ⟨rfl, -⟩
      · exact Document.find?_settled range doc path
      · rfl
    rw [result_reconcile_cons]
    refine ⟨doc₂, hframe₁.trans hframe₂, hholds₂, ?_, ?_, ?_⟩
    · rw [houtline₂]
      rcases hchange with rfl | ⟨rfl, -⟩
      · exact Document.outline_settled range doc
      · rfl
    · intro path
      rw [hfind₂, hfind₁]
    · intro i properties hproperties
      simp only [hfind₁] at hproperties₂
      rcases hchange with rfl | ⟨rfl, -⟩
      · have hstep := @Document.properties?_settled owns range doc i
        by_cases hhere : doc.find? range.nodePath = some i
        · rw [if_pos hhere, hproperties] at hstep
          obtain ⟨properties', hproperties', hsettled⟩ := hproperties₂ i _ hstep
          rw [List.filter_cons_of_pos (by simpa using hhere)]
          exact ⟨properties', hproperties', .settle hsettled⟩
        · rw [if_neg hhere, hproperties] at hstep
          rw [List.filter_cons_of_neg (by simpa using hhere)]
          exact hproperties₂ i _ hstep
      · obtain ⟨properties', hproperties', hsettled⟩ := hproperties₂ i _ hproperties
        by_cases hhere : doc₁.find? range.nodePath = some i
        · rw [List.filter_cons_of_pos (by simpa using hhere)]
          exact ⟨properties', hproperties', .skip hsettled⟩
        · rw [List.filter_cons_of_neg (by simpa using hhere)]
          exact ⟨properties', hproperties', hsettled⟩

/-- **What a channel map leaves alone.** Only resources of its ranges are asked about; if they are
all owned then the tree stays as it is; and otherwise the document changes at most as `Trimmed` says,
node by node, for the ranges whose path leads to the node. It does not matter where memory is
refused. -/
theorem trimmed_reconcile {map : List ChannelRange} (granted : Nat → Bool)
    (hdoc : tree.Stores doc) (hsize : tree.totalSize < 2 ^ 32)
    (hmap : ∀ range ∈ map, range.startResource.id.toNat + range.channelCount.toNat ≤ 2 ^ 32) :
    (∀ resource ∈ Event.queries (reconcile owns map granted tree).events, ∃ range ∈ map,
      ∃ k < range.channelCount.toNat, resource.id.toNat = range.startResource.id.toNat + k) ∧
    ((∀ range ∈ map, ∀ resource, range.Guards resource → owns resource = true) →
      (Fixup.result (reconcile owns map granted) tree).2 = tree) ∧
    ∃ doc', (Fixup.result (reconcile owns map granted) tree).2.Stores doc' ∧
      tree.SameFrame (Fixup.result (reconcile owns map granted) tree).2 ∧
      doc'.outline = doc.outline ∧
      ∀ i properties, doc.properties? i = some properties → ∃ properties',
        doc'.properties? i = some properties' ∧
        Trimmed owns (map.filter fun range => doc.find? range.nodePath = some i)
          properties properties' := by
  refine ⟨?_, fun howned => result_reconcile_of_owned howned _ tree, ?_⟩
  · intro resource hresource
    obtain ⟨range, hrange, k, hk, rfl⟩ := queries_reconcile owns map _ tree resource hresource
    refine ⟨range, hrange, k, hk, ?_⟩
    have hsum := hmap range hrange
    rw [Resource.nth, UInt32.toNat_add, UInt32.toNat_ofNat', Nat.add_mod_mod,
      Nat.mod_eq_of_lt (by omega)]
  · have hholds : Holds maskName tree doc := .ofStores hdoc hsize (by decide)
    obtain ⟨doc', hframe, hholds', houtline, -, hproperties⟩ :=
      @Holds.reconcile tree doc owns hholds map granted
    refine ⟨doc', hholds'.stores, hframe, houtline, ?_⟩
    intro i properties hbefore
    obtain ⟨properties', hafter, hsettled⟩ := hproperties i properties hbefore
    exact ⟨properties', hafter, hsettled.trimmed⟩

/-- The audio DMA controller with two ranges of the map, of which each loses a channel. -/
theorem trimmed_audioRegisters :
    (Fixup.result (reconcile (ownsAllBut [290, 323]) Soc.imx8qm.channelMap)
      audioRegisters).2.Stores (audioDocument fourChannelProperties) ∧
    Trimmed (ownsAllBut [290, 323]) (Soc.imx8qm.channelMap.filter fun range =>
      (audioDocument audioRegisterProperties).find? range.nodePath = some 2)
      audioRegisterProperties fourChannelProperties := by
  have hmap : ∀ range ∈ Soc.imx8qm.channelMap,
      range.startResource.id.toNat + range.channelCount.toNat ≤ 2 ^ 32 := by decide +kernel
  have hrun : (Fixup.result (reconcile (ownsAllBut [290, 323]) Soc.imx8qm.channelMap)
      audioRegisters).2 = (audioDocument fourChannelProperties).write
        (StringList.join (audioArrays.properties.map fun w => Bytes.ofText w.1)) 72 := by
    decide +kernel
  have hafter : (Fixup.result (reconcile (ownsAllBut [290, 323]) Soc.imx8qm.channelMap)
      audioRegisters).2.Stores (audioDocument fourChannelProperties) := by
    rw [hrun]
    exact Document.stores_write (by decide) rfl 72
  obtain ⟨-, -, doc', hstores, -, -, hproperties⟩ := @trimmed_reconcile audioRegisters _
    (ownsAllBut [290, 323]) _ (fun _ => true) stores_audioRegisters (by decide +kernel) hmap
  obtain rfl := hstores.unique hafter
  obtain ⟨properties', hleft, htrimmed⟩ := hproperties 2 _ (properties?_audioDocument _)
  rw [properties?_audioDocument, Option.some.injEq] at hleft
  exact ⟨hafter, hleft ▸ htrimmed⟩

end Tree

end BootTree
