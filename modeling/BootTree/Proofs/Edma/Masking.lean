import BootTree.Proofs.Document.Written
import BootTree.Proofs.Edma.Reconcile

/-!
# BootTree.Proofs.Edma.Masking

Controllers with a channel mask. One range switches off the channels between its first channel and
its channel count that the controller has and that are not owned; the bits that are set already stay
set. The channel count is compared with the controller's numbers of the channels, although a range
need not start with channel zero, so the last channels of such a range are never switched off.

* `Edma.isMasked_maskedBy`: the bits after one range.
* `Edma.MaskController.settle`, `Edma.MaskController.ranges`: a controller after one range, and
  after all of its ranges.
* `Tree.switchedOff_reconcile_iff_lt`: which channels that are not owned end up switched off.
-/

namespace BootTree

namespace Edma

variable {owns : Ownership} {range : ChannelRange} {channels mask : UInt32} {channel : Nat}

/-! ## Bits -/

theorem isMasked_foldl {candidates : List Candidate}
    (h : ∀ c ∈ candidates, c.index < maskBits) (mask : UInt32) (channel : Nat) :
    isMasked (candidates.foldl (fun mask c => withMasked mask c.index) mask) channel =
      (isMasked mask channel || candidates.any fun c => decide (c.index = channel)) := by
  induction candidates generalizing mask with
  | nil => simp
  | cons c cs ih =>
    have hrest : ∀ d ∈ cs, d.index < maskBits := by
      intro d hd
      exact h d (List.mem_cons_of_mem _ hd)
    rw [List.foldl_cons, ih hrest, List.any_cons, isMasked_withMasked (h c List.mem_cons_self),
      Bool.or_assoc]

theorem mem_maskCandidates {c : Candidate} :
    c ∈ maskCandidates range channels mask ↔
      range.startChannel.toNat ≤ c.index ∧
      c.index < min (min channels.toNat range.channelCount.toNat) maskBits ∧
      isMasked mask c.index = false ∧
      c.resource = range.startResource.nth (UInt32.ofNat (c.index - range.startChannel.toNat)) := by
  have hdrop (start stop k : Nat) : k ∈ (List.range stop).drop start ↔ start ≤ k ∧ k < stop := by
    rw [List.range_eq_range', List.drop_range', List.mem_range'_1]
    omega
  simp only [maskCandidates, List.mem_map, List.mem_filter, hdrop, Bool.not_eq_true']
  constructor
  · rintro ⟨k, ⟨⟨hle, hlt⟩, hmask⟩, rfl⟩
    exact ⟨hle, hlt, hmask, rfl⟩
  · rintro ⟨hle, hlt, hmask, hresource⟩
    exact ⟨c.index, ⟨⟨hle, hlt⟩, hmask⟩, by rw [← hresource]⟩

/-- Whether a range switches a channel off in the mask of a controller with so many channels. -/
def Loses (owns : Ownership) (range : ChannelRange) (channels : UInt32) (channel : Nat) : Prop :=
  range.startChannel.toNat ≤ channel ∧
    channel < min (min channels.toNat range.channelCount.toNat) maskBits ∧
    owns (range.startResource.nth (UInt32.ofNat (channel - range.startChannel.toNat))) = false

instance : Decidable (Loses owns range channels channel) :=
  inferInstanceAs (Decidable (_ ∧ _ ∧ _))

theorem isMasked_maskedBy (owns : Ownership) (range : ChannelRange) (channels mask : UInt32)
    (channel : Nat) :
    isMasked (maskedBy owns range channels mask) channel = true ↔
      isMasked mask channel = true ∨ Loses owns range channels channel := by
  have hbits : ∀ c ∈ unowned owns (maskCandidates range channels mask), c.index < maskBits := by
    intro c hc
    have := (mem_maskCandidates.1 (List.mem_filter.1 hc).1).2.1
    omega
  rw [maskedBy, isMasked_foldl hbits, Bool.or_eq_true, List.any_eq_true]
  constructor
  · rintro (hold | ⟨c, hc, heq⟩)
    · exact .inl hold
    · obtain ⟨hmem, howns⟩ := List.mem_filter.1 hc
      obtain ⟨hle, hlt, -, hresource⟩ := mem_maskCandidates.1 hmem
      obtain rfl := of_decide_eq_true heq
      rw [hresource] at howns
      exact .inr ⟨hle, hlt, by simpa using howns⟩
  · rintro (hold | ⟨hle, hlt, howns⟩)
    · exact .inl hold
    · by_cases hmask : isMasked mask channel = true
      · exact .inl hmask
      · have hmem : ⟨channel, range.startResource.nth
            (UInt32.ofNat (channel - range.startChannel.toNat))⟩ ∈
              maskCandidates range channels mask :=
          mem_maskCandidates.2 ⟨hle, hlt, by simpa using hmask, rfl⟩
        exact .inr ⟨_, List.mem_filter.2 ⟨hmem, by simp [howns]⟩, by simp⟩

theorem isMasked_zero (channel : Nat) : isMasked 0 channel = false := by
  simp [isMasked]

/-! ## Controllers -/

/-- The properties of a controller with a channel mask, which may still lack the mask. -/
structure MaskController (properties : List Property) (channels : UInt32) (mask : Option UInt32) :
    Prop where
  reg : ∃ base size, valueOf? properties "reg" = some (Cells.encode [base, size])
  interrupts : (valueOf? properties "interrupts").isSome = true
  count : valueOf? properties "dma-channels" = some (Bytes.word channels)
  count_ne : channels ≠ 0
  mask : valueOf? properties "dma-channel-mask" = mask.map Bytes.word

theorem readAs_singleCell {properties : List Property} {name : Bytes} {cell : Option UInt32}
    (h : valueOf? properties name = cell.map Bytes.word) :
    readAs Tree.singleCell properties name = .ok cell := by
  rw [readAs, h]
  cases cell with
  | none => rfl
  | some cell =>
    rw [Option.map_some]
    dsimp only
    rw [singleCell_word]

namespace MaskController

variable {properties : List Property} {mask : Option UInt32}

/-- A controller after one range. -/
theorem settle (h : MaskController properties channels mask) (owns : Ownership)
    (range : ChannelRange) :
    ∃ mask', MaskController (settle owns range properties) channels mask' ∧
      mask'.getD 0 = maskedBy owns range channels (mask.getD 0) := by
  obtain ⟨base, size, hreg⟩ := h.reg
  have hregisters : readAs Cells.decode properties "reg" = .ok (some [base, size]) := by
    rw [readAs, hreg]
    dsimp only
    rw [Cells.decode_encode]
  obtain ⟨interrupts, hinterrupts⟩ := Option.isSome_iff_exists.1 h.interrupts
  have hsettle : Edma.settle owns range properties =
      if maskedBy owns range channels (mask.getD 0) = mask.getD 0 then properties
      else withValue "dma-channel-mask"
        (Bytes.word (maskedBy owns range channels (mask.getD 0))) properties := by
    have hchannels : readAs Tree.singleCell properties "dma-channels" = .ok (some channels) :=
      readAs_singleCell h.count
    rw [Edma.settle, hregisters]
    simp [settleMask, hinterrupts, hchannels, readAs_singleCell h.mask, h.count_ne]
  rw [hsettle]
  by_cases hsame : maskedBy owns range channels (mask.getD 0) = mask.getD 0
  · rw [if_pos hsame]
    exact ⟨mask, h, hsame.symm⟩
  · rw [if_neg hsame]
    have hne (name : Bytes) (hname : name ≠ Bytes.ofText "dma-channel-mask") :=
      valueOf?_withValue_of_ne hname (Bytes.word (maskedBy owns range channels (mask.getD 0)))
        properties
    refine ⟨some (maskedBy owns range channels (mask.getD 0)), ⟨⟨base, size, ?_⟩, ?_, ?_,
      h.count_ne, ?_⟩, rfl⟩
    · rw [hne _ (by simp), hreg]
    · rw [hne _ (by simp), h.interrupts]
    · rw [hne _ (by simp), h.count]
    · rw [valueOf?_withValue]
      rfl

/-- A controller after some ranges. -/
theorem ranges (h : MaskController properties channels mask) (owns : Ownership)
    (ranges : List ChannelRange) :
    ∃ mask', MaskController
        (ranges.foldl (fun properties r => Edma.settle owns r properties) properties) channels mask' ∧
      ∀ channel, isMasked (mask'.getD 0) channel = true ↔
        isMasked (mask.getD 0) channel = true ∨ ∃ range ∈ ranges, Loses owns range channels channel := by
  induction ranges generalizing properties mask with
  | nil => exact ⟨mask, h, by simp⟩
  | cons range rest ih =>
    obtain ⟨mask₁, hcontroller, hmask⟩ := h.settle owns range
    obtain ⟨mask₂, hlast, hbits⟩ := ih hcontroller
    refine ⟨mask₂, hlast, ?_⟩
    intro channel
    rw [hbits, hmask, isMasked_maskedBy, List.exists_mem_cons_iff, or_assoc]

end MaskController

end Edma

/-! ## The controllers of a chip -/

/-- The two ranges of one controller are about different channels. -/
theorem Soc.ranges_disjoint (soc : Soc) : ∀ range ∈ soc.channelMap, ∀ other ∈ soc.channelMap,
    other.nodePath = range.nodePath → other = range ∨
      other.channelCount.toNat ≤ range.startChannel.toNat ∨
      range.startChannel.toNat + range.channelCount.toNat ≤ other.startChannel.toNat := by
  cases soc <;> decide +kernel

namespace Tree

open Edma

/-- The controller at a path has a mask that switches a channel off. -/
def SwitchedOff (tree : Tree) (path : String) (channel : Nat) : Prop :=
  ∃ ref mask, tree.resolve path = .ok (some ref) ∧
    tree.cell ref "dma-channel-mask" = .ok (some mask) ∧ isMasked mask channel = true

theorem switchedOff_iff {tree : Tree} {path : String} {channel : Nat} {ref : NodeRef}
    {mask : Option UInt32} (href : tree.resolve path = .ok (some ref))
    (hmask : tree.cell ref "dma-channel-mask" = .ok mask) :
    tree.SwitchedOff path channel ↔ isMasked (mask.getD 0) channel = true := by
  constructor
  · rintro ⟨ref', mask', href', hmask', hbit⟩
    rw [href, Except.ok.injEq, Option.some.injEq] at href'
    subst href'
    rw [hmask, Except.ok.injEq] at hmask'
    rw [hmask']
    exact hbit
  · intro hbit
    cases mask with
    | none =>
      rw [Option.getD_none, isMasked_zero] at hbit
      cases hbit
    | some mask => exact ⟨ref, mask, href, hmask, hbit⟩

section Chip

variable {tree : Tree} {doc : Document} {soc : Soc} {owns : Ownership} {range : ChannelRange}
  {i channel : Nat} {properties : List Property} {channels : UInt32} {mask : Option UInt32}

theorem Stores.switchedOff_iff (h : tree.Stores doc) (hfind : doc.find? range.nodePath = some i)
    (hproperties : doc.properties? i = some properties)
    (hcontroller : MaskController properties channels mask) :
    tree.SwitchedOff range.nodePath channel ↔ isMasked (mask.getD 0) channel = true := by
  obtain ⟨ref, _, _, _, _, _, hresolve, href, -⟩ := h.exists_of_find? hfind
  refine Tree.switchedOff_iff hresolve ?_
  rw [cell, h.valueAs href hproperties, readAs_singleCell hcontroller.mask]

/-- The bits of a controller after the channel map of its chip. -/
theorem Growable.switchedOff_reconcile (h : Growable maskName tree doc)
    (hrange : range ∈ soc.channelMap) (hfind : doc.find? range.nodePath = some i)
    (hproperties : doc.properties? i = some properties)
    (hcontroller : MaskController properties channels mask) :
    (Fixup.result (Edma.reconcile owns soc.channelMap) tree).2.SwitchedOff range.nodePath channel ↔
      isMasked (mask.getD 0) channel = true ∨
        ∃ other ∈ soc.ranges range.nodePath, Loses owns other channels channel := by
  obtain ⟨ref, href, hvalues⟩ :=
    @Growable.exists_reconciled _ _ owns _ _ _ _ h hrange hfind hproperties
  obtain ⟨mask', hcontroller', hmask'⟩ := hcontroller.ranges owns (soc.ranges range.nodePath)
  have hafter := hvalues _ singleCell "dma-channel-mask"
  rw [readAs_singleCell hcontroller'.mask] at hafter
  rw [Tree.switchedOff_iff href hafter, hmask']

/-- **Which channels end up switched off.** A channel of a range that is not owned is switched off
exactly if its number is less than the range's channel count, or it was switched off before. So in a
range that does not start with channel zero some channels stay on. -/
theorem switchedOff_reconcile_iff_lt (hdoc : tree.Stores doc) (hunlimited : tree.maxSize = none)
    (hsize : tree.totalSize < 2 ^ 32) (hrange : range ∈ soc.channelMap)
    (hfind : doc.find? range.nodePath = some i) (hproperties : doc.properties? i = some properties)
    (hcontroller : MaskController properties channels mask)
    (hle : range.startChannel.toNat ≤ channel)
    (hlt : channel < range.startChannel.toNat + range.channelCount.toNat)
    (hhas : channel < channels.toNat) (hbits : channel < maskBits)
    (hunowned : owns (range.startResource.nth
      (UInt32.ofNat (channel - range.startChannel.toNat))) = false) :
    (Fixup.result (reconcile owns soc.channelMap) tree).2.SwitchedOff range.nodePath channel ↔
      channel < range.channelCount.toNat ∨ tree.SwitchedOff range.nodePath channel := by
  have hgrowable := Growable.ofStores hdoc hunlimited hsize
  rw [hgrowable.switchedOff_reconcile hrange hfind hproperties hcontroller,
    hdoc.switchedOff_iff hfind hproperties hcontroller, or_comm]
  refine or_congr_left ?_
  constructor
  · rintro ⟨other, hother, hstart, hstop, -⟩
    obtain ⟨hother, hpath⟩ := List.mem_filter.1 hother
    rcases soc.ranges_disjoint range hrange other hother (of_decide_eq_true hpath) with
      rfl | hbelow | habove
    · omega
    · omega
    · omega
  · intro hcount
    refine ⟨range, List.mem_filter.2 ⟨hrange, by simp⟩, hle, ?_, hunowned⟩
    omega

end Chip

/-! ## The last channel of the audio DMA controller -/

def audioMaskProperties : List Property :=
  [⟨"reg", Cells.encode [0x591f0000, 0x10000]⟩, ⟨"interrupts", Cells.encode [0, 374, 4]⟩,
    ⟨"dma-channels", Bytes.word 32⟩]

/-- The audio DMA controller with 32 channels and without a mask. -/
def audioMask : Tree :=
  (audioDocument audioMaskProperties).write
    (StringList.join ["reg", "interrupts", "dma-channels"]) 0

theorem stores_audioMask : audioMask.Stores (audioDocument audioMaskProperties) :=
  Document.stores_write (by decide) rfl 0

theorem maskController_audioMask : MaskController audioMaskProperties 32 none where
  reg := ⟨0x591f0000, 0x10000, by decide⟩
  interrupts := by decide
  count := by decide
  count_ne := by decide
  mask := by decide

/-- Channel 26 has the resource 344, and without it the channel is switched off. -/
theorem switchedOff_audioMask :
    (Fixup.result (reconcile (ownsAllBut [344]) Soc.imx8qm.channelMap) audioMask).2.SwitchedOff
      "/bus@59000000/dma-controller@591f0000" 26 := by
  have h := @switchedOff_reconcile_iff_lt audioMask _ .imx8qm (ownsAllBut [344]) audioRange 2 26 _ 32
    none stores_audioMask rfl (by decide +kernel) audioRange_mem (find?_audioDocument _)
    (properties?_audioDocument _) maskController_audioMask (by decide) (by decide) (by decide)
    (by decide) (by decide)
  exact h.2 (.inl (by decide))

/-- Channel 31 has the resource 349, but without it the channel stays on. -/
theorem not_switchedOff_audioMask :
    audioMask.Stores (audioDocument audioMaskProperties) ∧ audioMask.maxSize = none ∧
      audioMask.totalSize < 2 ^ 32 ∧ audioRange ∈ Soc.imx8qm.channelMap ∧
      (audioDocument audioMaskProperties).find? audioRange.nodePath = some 2 ∧
      (audioDocument audioMaskProperties).properties? 2 = some audioMaskProperties ∧
      MaskController audioMaskProperties 32 none ∧
      audioRange.startChannel.toNat ≤ 31 ∧
      31 < audioRange.startChannel.toNat + audioRange.channelCount.toNat ∧
      31 < (32 : UInt32).toNat ∧ 31 < maskBits ∧
      ownsAllBut [349] (audioRange.startResource.nth
        (UInt32.ofNat (31 - audioRange.startChannel.toNat))) = false ∧
      ¬ (Fixup.result (reconcile (ownsAllBut [349]) Soc.imx8qm.channelMap) audioMask).2.SwitchedOff
        audioRange.nodePath 31 := by
  have hsize : audioMask.totalSize < 2 ^ 32 := by decide +kernel
  refine ⟨stores_audioMask, rfl, hsize, audioRange_mem, find?_audioDocument _,
    properties?_audioDocument _, maskController_audioMask, by decide, by decide, by decide,
    by decide, by decide, ?_⟩
  rw [(Growable.ofStores stores_audioMask rfl hsize).switchedOff_reconcile audioRange_mem
    (find?_audioDocument _) (properties?_audioDocument _) maskController_audioMask]
  decide +kernel

end Tree

end BootTree
