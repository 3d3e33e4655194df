import BootTree.Proofs.Edma.Controller

/-!
# BootTree.Proofs.Edma.Reconcile

What a channel map does to a tree that stores a document, range by range.

* `Edma.result_reconcileRange`: what one range does to any tree.
* `Edma.exists_sublist_of_granted`: where memory is refused, what is left is a run over fewer ranges.
* `Tree.Stores.reconcileRange_cases`: what one range comes to.
* `Tree.Holds.reconcileRange`: the tree stores the document after one range, or the one before if it
  has a limit.
* `Tree.Growable.reconcile`: without a limit it stores the document after the whole channel map.
* `Document.properties?_reconciled`: a node goes through the ranges whose path leads to it.
* `Tree.Growable.exists_reconciled`: what a controller of a chip holds afterwards.
-/

namespace BootTree

namespace Edma

/-- A range in any tree. All depends on the registers of the node that its path leads to. -/
theorem result_reconcileRange (owns : Ownership) (range : ChannelRange) (granted : Bool)
    (tree : Tree) :
    (Fixup.result (reconcileRange owns range granted) tree).2 =
      match tree.resolve range.nodePath with
      | .ok (some node) =>
        match tree.cells node "reg" with
        | .ok (some registers) =>
          if registers.length = 2 then ((maskChannels owns range node).result tree).2
          else ((dropChannels owns range node registers granted).result tree).2
        | _ => tree
      | _ => tree := by
  unfold reconcileRange
  rw [Fixup.result_bind, Fixup.result_ask]
  dsimp only
  rcases tree.resolve range.nodePath with _ | _ | node
  · rfl
  · rfl
  dsimp only
  rw [Fixup.result_bind, Fixup.result_log, Fixup.result_bind, Fixup.result_ask]
  dsimp only
  rcases tree.cells node "reg" with _ | _ | registers
  · rfl
  · rfl
  -- the outcome is only looked at for the log
  have hsilent (x : Attempt TreeError Unit) {rest : Except TreeError Unit → Fixup Unit}
      (hrest : ∀ outcome after, (Fixup.result (rest outcome) after).2 = after) :
      (Fixup.result (x.run >>= rest) tree).2 = (x.result tree).2 := by
    rw [Fixup.result_bind]
    exact hrest _ _
  dsimp only
  split
  · exact hsilent _ fun outcome _ => by cases outcome <;> rfl
  · exact hsilent _ fun outcome _ => by cases outcome <;> rfl

theorem result_reconcile_cons (owns : Ownership) (range : ChannelRange) (rest : List ChannelRange)
    (granted : Nat → Bool) (tree : Tree) :
    Fixup.result (reconcile owns (range :: rest) granted) tree =
      Fixup.result (reconcile owns rest fun place => granted (place + 1))
        (Fixup.result (reconcileRange owns range (granted 0)) tree).2 := by
  rw [reconcile_cons, Fixup.result_bind]

/-- With memory for name lists or without, a range does what it does with memory, or nothing. -/
theorem result_reconcileRange_eq_or (owns : Ownership) (range : ChannelRange) (granted : Bool)
    (tree : Tree) :
    (Fixup.result (reconcileRange owns range granted) tree).2 =
        (Fixup.result (reconcileRange owns range) tree).2 ∨
      (Fixup.result (reconcileRange owns range granted) tree).2 = tree := by
  cases granted with
  | true => exact .inl rfl
  | false =>
    rw [result_reconcileRange, result_reconcileRange]
    rcases tree.resolve range.nodePath with _ | _ | node
    · exact .inr rfl
    · exact .inr rfl
    dsimp only
    rcases tree.cells node "reg" with _ | _ | registers
    · exact .inr rfl
    · exact .inr rfl
    dsimp only
    by_cases hlength : registers.length = 2
    · rw [if_pos hlength, if_pos hlength]
      exact .inl rfl
    · rw [if_neg hlength, result_dropChannels_false]
      exact .inr rfl

/-- **Memory that is refused.** Wherever memory for name lists is refused, a channel map leaves the
tree that some of its ranges, in their order, leave with all the memory. -/
theorem exists_sublist_of_granted (owns : Ownership) (map : List ChannelRange)
    (granted : Nat → Bool) (tree : Tree) :
    ∃ ranges, ranges.Sublist map ∧
      (Fixup.result (reconcile owns map granted) tree).2 =
        (Fixup.result (reconcile owns ranges) tree).2 := by
  induction map generalizing tree granted with
  | nil => exact ⟨[], .refl [], by rw [reconcile_nil, reconcile_nil]⟩
  | cons range rest ih =>
    obtain ⟨ranges, hsublist, hrest⟩ := ih (fun place => granted (place + 1))
      (Fixup.result (reconcileRange owns range (granted 0)) tree).2
    rw [result_reconcile_cons, hrest]
    rcases result_reconcileRange_eq_or owns range (granted 0) tree with hsame | hunchanged
    · refine ⟨range :: ranges, hsublist.cons_cons range, ?_⟩
      rw [result_reconcile_cons, hsame]
    · exact ⟨ranges, hsublist.cons range, by rw [hunchanged]⟩

end Edma

namespace Tree

open Edma

variable {tree : Tree} {doc : Document} {owns : Ownership}

/-- A tree that is not too large for its header has room for one name. -/
theorem Growable.ofStores (h : tree.Stores doc) (hunlimited : tree.maxSize = none)
    (hsize : tree.totalSize < 2 ^ 32) : Growable maskName tree doc :=
  (Holds.ofStores h hsize (by decide)).growable hunlimited

/-- One range has nothing to do, or all depends on the controller that its path leads to. -/
theorem Stores.reconcileRange_cases (h : tree.Stores doc) (owns : Ownership) (range : ChannelRange)
    (granted : Bool) :
    ((Fixup.result (Edma.reconcileRange owns range granted) tree).2 = tree ∧
      doc.settled owns range = doc) ∨
    ∃ i ref properties registers, doc.find? range.nodePath = some i ∧ tree.nodes[i]? = some ref ∧
      doc.properties? i = some properties ∧
      readAs Cells.decode properties "reg" = .ok (some registers) ∧
      (Fixup.result (Edma.reconcileRange owns range granted) tree).2 =
        if registers.length = 2 then ((maskChannels owns range ref).result tree).2
        else ((dropChannels owns range ref registers granted).result tree).2 := by
  rw [result_reconcileRange]
  unfold Document.settled
  by_cases hslash : (Bytes.ofText range.nodePath).head? = some slash
  · cases hfind : doc.find? range.nodePath with
    | none =>
      rw [h.resolve hslash, hfind]
      exact .inl ⟨rfl, rfl⟩
    | some i =>
      obtain ⟨ref, found, pre, body, inner, post, hresolve, href, hat⟩ := h.exists_of_find? hfind
      have hproperties := hat.properties?_eq
      have hunchanged (hsame : settle owns range found.properties = found.properties) :
          doc.alter (settle owns range) id i = doc :=
        Document.alter_eq_self hproperties hsame
      rw [hresolve]
      dsimp only
      rw [Tree.cells, hat.valueAs]
      cases hreg : readAs Cells.decode found.properties "reg" with
      | error e => exact .inl ⟨rfl, hunchanged (by simp [settle, hreg])⟩
      | ok read =>
        cases read with
        | none => exact .inl ⟨rfl, hunchanged (by simp [settle, hreg])⟩
        | some registers =>
          exact .inr ⟨i, ref, found.properties, registers, rfl, href, hproperties, hreg, rfl⟩
  · rw [Tree.resolve, if_pos hslash, Document.find?, if_neg hslash]
    exact .inl ⟨rfl, rfl⟩

/-- What one range of a channel map does to the document. With memory for name lists, only a write to
a controller with a channel mask may not be made. -/
theorem Holds.reconcileRange (h : Holds maskName tree doc) (range : ChannelRange)
    (granted : Bool) :
    ∃ doc', tree.SameFrame (Fixup.result (Edma.reconcileRange owns range granted) tree).2 ∧
      Holds maskName (Fixup.result (Edma.reconcileRange owns range granted) tree).2 doc' ∧
      (doc' = doc.settled owns range ∨ doc' = doc ∧ (granted = false ∨ tree.maxSize ≠ none ∧
        ∃ i properties registers, doc.find? range.nodePath = some i ∧
          doc.properties? i = some properties ∧
          readAs Cells.decode properties "reg" = .ok (some registers) ∧ registers.length = 2)) := by
  rcases h.stores.reconcileRange_cases owns range granted with ⟨hafter, hsame⟩ |
    ⟨i, ref, properties, registers, hfind, href, hproperties, hreg, hafter⟩
  · rw [hafter, hsame]
    exact ⟨doc, .refl tree, h, .inl rfl⟩
  · rw [hafter, Document.settled, hfind]
    dsimp only
    by_cases hlength : registers.length = 2
    · obtain ⟨outcome, tree', hresult, hwritten⟩ :=
        @result_maskChannels tree doc i ref _ owns range h href hproperties
      have hsettle : settle owns range properties = settleMask owns range properties := by
        simp [settle, hreg, hlength]
      rw [if_pos hlength, hresult, Document.alter_congr hproperties hsettle]
      rcases hwritten.holds with hholds | ⟨hholds, hlimited⟩
      · exact ⟨_, hwritten.frame, hholds, .inl rfl⟩
      · exact ⟨doc, hwritten.frame, hholds,
          .inr ⟨rfl, .inr ⟨hlimited, i, properties, registers, rfl, hproperties, hreg, hlength⟩⟩⟩
    · rw [if_neg hlength]
      cases granted with
      | false =>
        rw [result_dropChannels_false]
        exact ⟨doc, .refl tree, h, .inr ⟨rfl, .inl rfl⟩⟩
      | true =>
        obtain ⟨outcome, tree', hresult, hframe, hholds⟩ :=
          @result_dropChannels tree doc i ref _ owns range registers h href hproperties hreg
        have hsettle : settle owns range properties =
            settleRegisters owns range registers properties := by
          simp [settle, hreg, hlength]
        rw [hresult, Document.alter_congr hproperties hsettle]
        exact ⟨_, hframe, hholds, .inl rfl⟩

theorem Growable.reconcileRange (h : Growable maskName tree doc) (range : ChannelRange) :
    Growable maskName (Fixup.result (Edma.reconcileRange owns range) tree).2
      (doc.settled owns range) := by
  obtain ⟨doc', hframe, hholds, rfl | ⟨-, hrefused | ⟨hlimited, -⟩⟩⟩ :=
    @Holds.reconcileRange tree doc owns h.holds range true
  · exact hholds.growable (hframe.maxSize.trans h.unlimited)
  · cases hrefused
  · exact absurd h.unlimited hlimited

/-- What a channel map does to the document. -/
theorem Growable.reconcile (h : Growable maskName tree doc) (map : List ChannelRange) :
    Growable maskName (Fixup.result (Edma.reconcile owns map) tree).2
      (doc.reconciled owns map) := by
  induction map generalizing tree doc with
  | nil => exact h
  | cons range rest ih =>
    rw [result_reconcile_cons]
    exact ih (h.reconcileRange range)

end Tree

/-! ## The controllers of a chip -/

namespace Document

open Edma

variable {owns : Ownership}

theorem find?_settled (range : ChannelRange) (doc : Document) (path : Bytes) :
    (doc.settled owns range).find? path = doc.find? path := by
  unfold settled
  cases doc.find? range.nodePath with
  | none => rfl
  | some i => exact find?_alter _ _ _ _

theorem outline_settled (range : ChannelRange) (doc : Document) :
    (doc.settled owns range).outline = doc.outline := by
  unfold settled
  cases doc.find? range.nodePath with
  | none => rfl
  | some i => exact outline_alter _ _ _

theorem find?_reconciled (map : List ChannelRange) (doc : Document) (path : Bytes) :
    (doc.reconciled owns map).find? path = doc.find? path := by
  induction map generalizing doc with
  | nil => rfl
  | cons range rest ih => exact (ih _).trans (find?_settled range doc path)

theorem properties?_settled (range : ChannelRange) (doc : Document) (i : Nat) :
    (doc.settled owns range).properties? i =
      if doc.find? range.nodePath = some i then (doc.properties? i).map (settle owns range)
      else doc.properties? i := by
  unfold settled
  cases hfind : doc.find? range.nodePath with
  | none => simp
  | some j =>
    obtain ⟨node, hnode, -⟩ := exists_of_find? hfind
    have hlt : j < doc.forest.size := by
      rw [← Forest.node?_isSome_iff, ← node?, hnode]
      rfl
    dsimp only
    rw [properties?_alter _ _ _ _ hlt]
    simp only [Option.some.injEq]

/-- A node goes through the ranges whose path leads to it, in order. -/
theorem properties?_reconciled (map : List ChannelRange) (doc : Document) (i : Nat) :
    (doc.reconciled owns map).properties? i = (doc.properties? i).map fun properties =>
      (map.filter fun range => doc.find? range.nodePath = some i).foldl
        (fun properties range => settle owns range properties) properties := by
  induction map generalizing doc with
  | nil => simp [reconciled]
  | cons range rest ih =>
    have hrest := ih (doc.settled owns range)
    simp only [find?_settled] at hrest
    change (reconciled owns rest (doc.settled owns range)).properties? i = _
    rw [hrest, properties?_settled]
    by_cases hhere : doc.find? range.nodePath = some i
    · rw [if_pos hhere, List.filter_cons_of_pos (by simpa using hhere), Option.map_map]
      rfl
    · rw [if_neg hhere, List.filter_cons_of_neg (by simpa using hhere)]

end Document

namespace Soc

open Edma

/-- The ranges of one controller. -/
def ranges (soc : Soc) (path : String) : List ChannelRange :=
  soc.channelMap.filter fun range => range.nodePath = path

/-- The paths of a chip's controllers end in names with a unit address. -/
theorem atSign_mem_last (soc : Soc) : ∀ range ∈ soc.channelMap,
    ((Tree.components range.nodePath).getLast?.any fun last => last.contains atSign) = true := by
  cases soc <;> decide +kernel

theorem path_eq_of_last_eq (soc : Soc) : ∀ r ∈ soc.channelMap, ∀ r' ∈ soc.channelMap,
    (Tree.components r.nodePath).getLast? = (Tree.components r'.nodePath).getLast? →
      r.nodePath = r'.nodePath := by
  cases soc <;> decide +kernel

/-- The ranges whose paths lead to a controller are those with the controller's path. -/
theorem filter_find? {doc : Document} {soc : Soc} {range : ChannelRange} {i : Nat}
    (hrange : range ∈ soc.channelMap) (hfind : doc.find? range.nodePath = some i) :
    (soc.channelMap.filter fun r => doc.find? r.nodePath = some i) = soc.ranges range.nodePath := by
  apply List.filter_congr
  intro r hr
  rw [decide_eq_decide]
  constructor
  · intro h
    obtain ⟨last, hlast, hunit⟩ := (Option.any_eq_true _ _).1 (soc.atSign_mem_last r hr)
    obtain ⟨last', hlast', hunit'⟩ := (Option.any_eq_true _ _).1 (soc.atSign_mem_last range hrange)
    refine soc.path_eq_of_last_eq r hr range hrange ?_
    rw [hlast, hlast', Document.last_eq_of_find? h hfind hlast hlast'
      (List.contains_iff_mem.1 hunit) (List.contains_iff_mem.1 hunit')]
  · intro h
    rw [h, hfind]

end Soc

/-- What a controller of a chip holds after the chip's channel map. -/
theorem Tree.Growable.exists_reconciled {tree : Tree} {doc : Document} {owns : Ownership}
    {soc : Soc} {range : Edma.ChannelRange} {i : Nat} {properties : List Property}
    (h : Growable Edma.maskName tree doc) (hrange : range ∈ soc.channelMap)
    (hfind : doc.find? range.nodePath = some i) (hproperties : doc.properties? i = some properties) :
    ∃ ref, (Fixup.result (Edma.reconcile owns soc.channelMap) tree).2.resolve range.nodePath =
        .ok (some ref) ∧
      ∀ (α : Type) (decode : Bytes → Except ValueError α) (name : Bytes),
        (Fixup.result (Edma.reconcile owns soc.channelMap) tree).2.valueAs decode ref name =
          readAs decode ((soc.ranges range.nodePath).foldl
            (fun properties r => Edma.settle owns r properties) properties) name := by
  have hdone : Growable Edma.maskName (Fixup.result (Edma.reconcile owns soc.channelMap) tree).2
      (doc.reconciled owns soc.channelMap) := h.reconcile soc.channelMap
  have hfind' : (doc.reconciled owns soc.channelMap).find? range.nodePath = some i := by
    rw [Document.find?_reconciled, hfind]
  have hproperties' := @Document.properties?_reconciled owns soc.channelMap doc i
  rw [Soc.filter_find? hrange hfind, hproperties, Option.map_some] at hproperties'
  obtain ⟨ref, _, _, _, _, _, hresolve, href, -⟩ := hdone.stores.exists_of_find? hfind'
  refine ⟨ref, hresolve, ?_⟩
  intro α decode name
  exact hdone.stores.valueAs href hproperties' decode name

/-! ## A controller with two ranges -/

namespace Edma

/-- A device tree of the first chip with nothing but its audio DMA controller. -/
def audioDocument (properties : List Property) : Document where
  name := []
  properties := []
  children := .node "bus@59000000" [] (.node "dma-controller@591f0000" properties .nil .nil) .nil

/-- The second range of the audio DMA controller; the first one has five channels. -/
def audioRange : ChannelRange :=
  ⟨Resource.dma2Channel5, 0x59250000, 27, 5, "/bus@59000000/dma-controller@591f0000"⟩

theorem audioRange_mem : audioRange ∈ Soc.imx8qm.channelMap := by decide +kernel

theorem find?_audioDocument (properties : List Property) :
    (audioDocument properties).find? audioRange.nodePath = some 2 := by cbv

theorem properties?_audioDocument (properties : List Property) :
    (audioDocument properties).properties? 2 = some properties := by cbv

/-- A partition that owns everything but some resources. -/
def ownsAllBut (ids : List UInt32) : Ownership := fun resource => !ids.contains resource.id

end Edma

end BootTree
