import BootTree.Proofs.Document.Kept
import BootTree.Proofs.Edma.Trimming
import BootTree.Proofs.PowerDomain.Dependence

/-!
# BootTree.Proofs.Setup.Retained

What the setup may do to the properties of the nodes that are there before it. Few names are written
at few nodes, no node becomes usable, and no DMA channel that is switched off is switched on.

* `Retained`: properties after writes that switch on no channel.
* `Setup.MayChange`: which properties of which nodes may get which values.
* `Document.kept_withValue`, `Document.kept_disable`: one write, and the writes that disable nodes.
* `Retained.isEnabled`: a node that was not usable is not usable afterwards.
-/

namespace BootTree

/-- Properties after writes of which `may` holds. Channels that a mask switches off stay off. -/
structure Retained (may : Bytes → Bytes → Prop) (before after : List Property) : Prop where
  overlay : Overlay may before after
  mask : ∀ old, readAs Tree.singleCell before "dma-channel-mask" = .ok (some old) →
    ∃ new, readAs Tree.singleCell after "dma-channel-mask" = .ok (some new) ∧
      ∀ channel, Edma.isMasked old channel = true → Edma.isMasked new channel = true

namespace Retained

variable {may may' : Bytes → Bytes → Prop} {before after last : List Property}

theorem refl (may : Bytes → Bytes → Prop) (properties : List Property) :
    Retained may properties properties :=
  ⟨.refl may properties, fun old hold => ⟨old, hold, fun _ => id⟩⟩

theorem mono (h : ∀ name value, may name value → may' name value) (hr : Retained may before after) :
    Retained may' before after :=
  ⟨hr.overlay.mono h, hr.mask⟩

theorem trans (h : Retained may before after) (h' : Retained may after last) :
    Retained may before last := by
  refine ⟨h.overlay.trans h'.overlay, ?_⟩
  intro old hold
  obtain ⟨mid, hmid, hfirst⟩ := h.mask old hold
  obtain ⟨new, hnew, hsecond⟩ := h'.mask mid hmid
  exact ⟨new, hnew, fun channel hset => hsecond channel (hfirst channel hset)⟩

theorem ofOverlay (h : Overlay may before after)
    (hmask : ∀ value, ¬ may (Bytes.ofText "dma-channel-mask") value) : Retained may before after := by
  refine ⟨h, ?_⟩
  intro old hold
  refine ⟨old, ?_, fun _ => id⟩
  rw [Edma.readAs_congr (h.valueOf?_eq hmask), hold]

/-- Channels that are taken out of a controller are retained ones switched off. -/
theorem ofTrimmed {owns : Ownership} {ranges : List Edma.ChannelRange}
    (h : Edma.Trimmed owns ranges before after) :
    Retained (fun name _ => name ∈ Edma.controllerNames ∧ ranges ≠ []) before after := by
  by_cases hranges : ranges = []
  · rw [h.unreached hranges]
    exact .refl _ before
  refine ⟨h.overlay.mono fun name _ hname => ⟨hname, hranges⟩, ?_⟩
  intro old hold
  obtain ⟨new, hnew, hleft⟩ := h.mask (some old) hold
  cases new with
  | some new => exact ⟨new, hnew, hleft.kept⟩
  | none =>
    -- a property that was there cannot be missing
    obtain ⟨raw, hraw, -⟩ := readAs_eq_some_iff.1 hold
    rw [readAs] at hnew
    rcases h.overlay.valueOf?_cases (Bytes.ofText "dma-channel-mask") with hsame | ⟨value, -, hvalue⟩
    · rw [hsame, hraw] at hnew
      dsimp only at hnew
      split at hnew <;> cases hnew
    · rw [hvalue] at hnew
      dsimp only at hnew
      split at hnew <;> cases hnew

end Retained

namespace Setup

/-- What the setup may write over at a node of the document that it starts with: the status of a
node that it disables, the properties of a DMA controller of the chip, the seed of the `chosen` node
below the root, and what describes the secure operating system. -/
inductive MayChange (soc : Soc) (doc : Document) (i : Nat) : Bytes → Bytes → Prop where
  | status : MayChange soc doc i "status" disabledStatus
  | controller {range : Edma.ChannelRange} {name : Bytes} (value : Bytes) :
      range ∈ soc.channelMap → doc.find? range.nodePath = some i → name ∈ Edma.controllerNames →
      MayChange soc doc i name value
  | seed (value : Bytes) : doc.find? "/chosen" = some i → MayChange soc doc i "kaslr-seed" value
  | secureOs {name : Bytes} (value : Bytes) : name = "compatible" ∨ name = "method" →
      doc.find? "/firmware/optee" = some i → MayChange soc doc i name value

theorem MayChange.eq_disabledStatus {soc : Soc} {doc : Document} {i : Nat} {value : Bytes}
    (h : MayChange soc doc i "status" value) : value = disabledStatus := by
  generalize hname : Bytes.ofText "status" = name at h
  cases h with
  | status => rfl
  | controller _ _ _ hmem => subst hname; simp [Edma.controllerNames] at hmem
  | seed => simp at hname
  | secureOs _ hsecure => subst hname; simp at hsecure

end Setup

namespace Document

variable {doc : Document} {n : Nat} {name value : Bytes}

/-- A write of anything but a channel mask. -/
theorem kept_withValue (hn : n < doc.forest.size) (hname : name ≠ Bytes.ofText "dma-channel-mask")
    (value : Bytes) :
    Kept (fun i => Retained fun written new => i = n ∧ written = name ∧ new = value) doc
      (doc.alter (withValue name value) id n) id := by
  refine .ofOutline (outline_alter _ _ _) ?_
  intro i _
  rw [propertiesAt_alter _ hn]
  by_cases hi : n = i
  · rw [if_pos hi]
    refine .ofOverlay (.withValue ⟨hi.symm, rfl, rfl⟩ _) ?_
    rintro _ ⟨-, hmask, -⟩
    exact hname hmask.symm
  · rw [if_neg hi]
    exact .refl _ _

theorem kept_disable {nodes : List Nat} (h : ∀ i ∈ nodes, i < doc.forest.size) :
    Kept (fun _ => Retained fun written new => written = Bytes.ofText "status" ∧ new = disabledStatus)
      doc (doc.disable nodes) id := by
  induction nodes generalizing doc with
  | nil => exact .refl doc fun _ => .refl _
  | cons i rest ih =>
    have hi := h i List.mem_cons_self
    have hname : Bytes.ofText "status" ≠ Bytes.ofText "dma-channel-mask" := by simp
    have hfirst := kept_withValue hi hname disabledStatus
    have hsize := (SameButStatus.alter disabledStatus hi).size
    have hrest := @ih (doc.alter (withValue "status" disabledStatus) id i) (by
      intro j hj
      rw [hsize]
      exact h j (List.mem_cons_of_mem _ hj))
    refine hfirst.trans hrest ?_
    intro _ before mid after hbefore hafter
    exact (hbefore.mono fun _ _ hwritten => hwritten.2).trans hafter

theorem find?_disable (doc : Document) (nodes : List Nat) (path : Bytes) :
    (doc.disable nodes).find? path = doc.find? path := by
  induction nodes generalizing doc with
  | nil => rfl
  | cons i rest ih => exact (ih _).trans (find?_alter _ _ _ _)

end Document

/-- A node that was not usable is not usable afterwards: the only status that is written disables. -/
theorem Retained.isEnabled {soc : Soc} {doc doc' : Document} {i j : Nat}
    (h : Retained (Setup.MayChange soc doc i) (doc.propertiesAt i) (doc'.propertiesAt j))
    (hdisabled : doc.isEnabled i = false) : doc'.isEnabled j = false := by
  rw [Document.isEnabled] at hdisabled ⊢
  rcases h.overlay.valueOf?_cases (Bytes.ofText "status") with hsame | ⟨value, hmay, hvalue⟩
  · rw [Edma.readAs_congr hsame]
    exact hdisabled
  · rw [hmay.eq_disabledStatus] at hvalue
    have hread := Document.readAs_status_disabled (doc.propertiesAt i)
    rw [readAs, valueOf?_withValue] at hread
    rw [readAs, hvalue, hread]
    simp

end BootTree
