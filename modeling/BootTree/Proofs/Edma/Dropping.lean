import BootTree.Proofs.Document.Written
import BootTree.Proofs.Edma.Channels
import BootTree.Proofs.Edma.Reconcile

/-!
# BootTree.Proofs.Edma.Dropping

Which channels a controller with a register range per channel is left with. A range looks at its
entries in `reg` from the number of the range's first channel on, although earlier ranges may have
taken channels out in front of it, so such a range can pass over channels that it should take out.

* `Edma.overlooked`: the channels that the ranges of a controller pass over.
* `Tree.ownsRegisters_reconcile_iff`: when every register range that is left has an owned resource.
-/

namespace BootTree

namespace Edma

/-! ## Channels that are passed over -/

/-- The channels that are not taken out although a range assigns them to resources that are not
owned, because they stand too far in front when the range's turn comes. -/
def overlooked (owns : Ownership) : List ChannelRange → List Channel → List Channel
  | [], _ => []
  | range :: rest, channels =>
    ((channels.take (range.startChannel.toNat - 1)).filter fun c =>
      isForeign owns range c.base c.size) ++ overlooked owns rest (kept owns range channels)

section Overlooked

variable {owns : Ownership} {ranges : List ChannelRange} {channels : List Channel}

theorem foldl_kept_subset (owns : Ownership) (ranges : List ChannelRange) (channels : List Channel) :
    ranges.foldl (fun channels r => kept owns r channels) channels ⊆ channels := by
  induction ranges generalizing channels with
  | nil => exact List.Subset.refl _
  | cons range rest ih => exact List.Subset.trans (ih (kept owns range channels)) kept_subset

theorem isForeign_of_overlooked_eq_nil (h : overlooked owns ranges channels = [])
    {range : ChannelRange} (hrange : range ∈ ranges) {c : Channel}
    (hc : c ∈ ranges.foldl (fun channels r => kept owns r channels) channels) :
    isForeign owns range c.base c.size = false := by
  induction ranges generalizing channels with
  | nil => cases hrange
  | cons first rest ih =>
    rw [overlooked, List.append_eq_nil_iff] at h
    rcases List.mem_cons.1 hrange with rfl | hrange
    · have hkept := foldl_kept_subset owns rest _ hc
      rcases List.mem_append.1 hkept with hpassed | hleft
      · simpa using List.filter_eq_nil_iff.1 h.1 c hpassed
      · simpa using (List.mem_filter.1 hleft).2
    · exact ih h.2 hrange hc

/-- If only the last range can pass over channels, the channels that are passed over are left. -/
theorem overlooked_eq_nil (hstart : ∀ range ∈ ranges.dropLast, range.startChannel.toNat ≤ 1)
    (h : ∀ range ∈ ranges, ∀ c ∈ ranges.foldl (fun channels r => kept owns r channels) channels,
      isForeign owns range c.base c.size = false) : overlooked owns ranges channels = [] := by
  induction ranges generalizing channels with
  | nil => rfl
  | cons first rest ih =>
    rw [overlooked, List.append_eq_nil_iff]
    constructor
    · rw [List.filter_eq_nil_iff]
      intro c hc
      cases rest with
      | nil =>
        have := h first List.mem_cons_self c (List.mem_append_left _ hc)
        simp [this]
      | cons second rest =>
        have hzero : first.startChannel.toNat - 1 = 0 := by
          have := hstart first (by simp)
          omega
        rw [hzero, List.take_zero] at hc
        cases hc
    · apply ih
      · intro range hrange
        apply hstart
        cases rest with
        | nil => cases hrange
        | cons second rest => exact List.mem_cons_of_mem _ hrange
      · intro range hrange c hc
        exact h range (List.mem_cons_of_mem _ hrange) c hc

end Overlooked

end Edma

/-! ## The controllers of a chip -/

/-- Only the last range of a controller starts behind its first channels. -/
theorem Soc.startChannel_le (soc : Soc) : ∀ range ∈ soc.channelMap,
    ∀ other ∈ (soc.ranges range.nodePath).dropLast, other.startChannel.toNat ≤ 1 := by
  cases soc <;> decide +kernel

namespace Tree

open Edma

/-- No register range of the controller at a path belongs to a channel whose resource is not
owned. -/
def OwnsRegisters (tree : Tree) (owns : Ownership) (ranges : List ChannelRange) (path : String) :
    Prop :=
  ∃ ref registers, tree.resolve path = .ok (some ref) ∧
    tree.cells ref "reg" = .ok (some registers) ∧
    ∀ range ∈ ranges, ∀ base size channel, [base, size] ∈ (splitRecords 2 registers).1 →
      range.channel? base size = some channel → owns (range.startResource.nth channel) = true

section Chip

variable {tree : Tree} {doc : Document} {soc : Soc} {owns : Ownership} {range : ChannelRange}
  {i : Nat} {properties : List Property} {base size : UInt32} {channels : List Channel}

/-- The channels of a controller after the channel map of its chip. -/
theorem Growable.ownsRegisters_reconcile (h : Growable maskName tree doc)
    (hrange : range ∈ soc.channelMap) (hfind : doc.find? range.nodePath = some i)
    (hproperties : doc.properties? i = some properties)
    (hcontroller : RegisterController properties base size channels)
    (hown : ∀ r ∈ soc.ranges range.nodePath, r.channel? base size = none) :
    (Fixup.result (Edma.reconcile owns soc.channelMap) tree).2.OwnsRegisters owns
        (soc.ranges range.nodePath) range.nodePath ↔
      ∀ r ∈ soc.ranges range.nodePath, ∀ c ∈ (soc.ranges range.nodePath).foldl
        (fun channels r => kept owns r channels) channels,
          isForeign owns r c.base c.size = false := by
  obtain ⟨ref, href, hvalues⟩ :=
    @Growable.exists_reconciled _ _ owns _ _ _ _ h hrange hfind hproperties
  obtain ⟨hreg, -⟩ := (hcontroller.ranges owns hown).arraysOf
  have hcells := hvalues _ Cells.decode "reg"
  rw [hreg] at hcells
  constructor
  · rintro ⟨ref', registers, href', hcells', howned⟩ r hr c hc
    rw [href, Except.ok.injEq, Option.some.injEq] at href'
    subst href'
    rw [cells, hcells, Except.ok.injEq, Option.some.injEq] at hcells'
    subst hcells'
    have hmem : [c.base, c.size] ∈ (splitRecords 2 (ChannelArrays.ofChannels base size
        ((soc.ranges range.nodePath).foldl (fun channels r => kept owns r channels)
          channels)).registers).1 := by
      rw [splitRecords_registers]
      exact List.mem_cons_of_mem _ (List.mem_map.2 ⟨c, hc, rfl⟩)
    rw [isForeign]
    cases hchannel : r.channel? c.base c.size with
    | none => rfl
    | some channel => simp [howned r hr _ _ channel hmem hchannel]
  · intro hleft
    refine ⟨ref, _, href, hcells, ?_⟩
    intro r hr b s channel hmem hchannel
    rw [splitRecords_registers] at hmem
    rcases List.mem_cons.1 hmem with heq | hmem
    · cases heq
      rw [hown r hr] at hchannel
      cases hchannel
    · obtain ⟨c, hc, heq⟩ := List.mem_map.1 hmem
      cases heq
      simpa [isForeign, hchannel] using hleft r hr c hc

/-- **Which register ranges are left.** After the channel map of a chip, the controllers with a
register range per channel have none that belongs to a resource that is not owned, exactly if no
range of the map passes over such a channel. -/
theorem ownsRegisters_reconcile_iff (hdoc : tree.Stores doc) (hunlimited : tree.maxSize = none)
    (hsize : tree.totalSize < 2 ^ 32) (hrange : range ∈ soc.channelMap)
    (hfind : doc.find? range.nodePath = some i) (hproperties : doc.properties? i = some properties)
    (hcontroller : RegisterController properties base size channels)
    (hown : ∀ r ∈ soc.ranges range.nodePath, r.channel? base size = none) :
    (Fixup.result (reconcile owns soc.channelMap) tree).2.OwnsRegisters owns
        (soc.ranges range.nodePath) range.nodePath ↔
      overlooked owns (soc.ranges range.nodePath) channels = [] := by
  rw [(Growable.ofStores hdoc hunlimited hsize).ownsRegisters_reconcile hrange hfind hproperties
    hcontroller hown]
  constructor
  · intro hleft
    exact overlooked_eq_nil (soc.startChannel_le range hrange) hleft
  · intro hnone r hr c hc
    exact isForeign_of_overlooked_eq_nil hnone hr hc

end Chip

/-! ## The sixth channel of the audio DMA controller -/

def audioChannel (n : Fin 6) : Channel where
  base := 0x59200000 + UInt32.ofNat n * 0x10000
  size := 0x10000
  interrupt := [0, 374 + UInt32.ofNat n, 4]
  interruptName := Bytes.ofText "ch" ++ [48 + UInt8.ofNat n]
  powerDomain := [1, if n = 5 then 323 else 289 + UInt32.ofNat n]
  powerDomainName := Bytes.ofText "pd" ++ [48 + UInt8.ofNat n]
  length_interrupt := rfl
  length_powerDomain := rfl
  zero_interruptName := by revert n; decide
  zero_powerDomainName := by revert n; decide

def audioChannels : List Channel := (List.finRange 6).map audioChannel

def audioArrays : ChannelArrays := .ofChannels 0x591f0000 0x10000 audioChannels

def audioRegisterProperties : List Property :=
  audioArrays.properties.map fun w => ⟨Bytes.ofText w.1, w.2⟩

/-- The audio DMA controller with the first six of its channels. -/
def audioRegisters : Tree :=
  (audioDocument audioRegisterProperties).write
    (StringList.join (audioArrays.properties.map fun w => Bytes.ofText w.1)) 0

theorem stores_audioRegisters : audioRegisters.Stores (audioDocument audioRegisterProperties) :=
  Document.stores_write (by decide) rfl 0

theorem registerController_audioRegisters :
    RegisterController audioRegisterProperties 0x591f0000 0x10000 audioChannels where
  values := by
    change ∀ w ∈ audioArrays.properties, valueOf? audioRegisterProperties w.1 = some w.2
    decide
  length_lt := by decide

/-- The arrays without the second and the sixth channel. -/
def fourChannels : ChannelArrays where
  registers := [0x591f0000, 0x10000, 0x59200000, 0x10000, 0x59220000, 0x10000, 0x59230000, 0x10000,
    0x59240000, 0x10000]
  interrupts := [0, 374, 4, 0, 376, 4, 0, 377, 4, 0, 378, 4]
  channels := 4
  interruptNames := StringList.join ["ch0", "ch2", "ch3", "ch4"]
  powerDomains := [1, 289, 1, 291, 1, 292, 1, 293]
  powerDomainNames := StringList.join ["pd0", "pd2", "pd3", "pd4"]

def fourChannelProperties : List Property :=
  fourChannels.properties.map fun w => ⟨Bytes.ofText w.1, w.2⟩

theorem channel?_audioRegisters :
    ∀ r ∈ Soc.imx8qm.ranges audioRange.nodePath, r.channel? 0x591f0000 0x10000 = none := by
  decide

/-- Without the resources of the second and the sixth channel both are taken out. -/
theorem ownsRegisters_audioRegisters :
    (Fixup.result (reconcile (ownsAllBut [290, 323]) Soc.imx8qm.channelMap)
      audioRegisters).2.OwnsRegisters (ownsAllBut [290, 323])
        (Soc.imx8qm.ranges audioRange.nodePath) audioRange.nodePath :=
  (ownsRegisters_reconcile_iff stores_audioRegisters rfl (by decide +kernel) audioRange_mem
    (find?_audioDocument _) (properties?_audioDocument _) registerController_audioRegisters
    channel?_audioRegisters).2 (List.isEmpty_iff.1 (by decide +kernel))

/-- Without the resource of the first channel, too, the sixth one is passed over: when its range has
its turn, it stands among the first four channels. -/
theorem not_ownsRegisters_audioRegisters :
    audioRegisters.Stores (audioDocument audioRegisterProperties) ∧
      audioRegisters.maxSize = none ∧ audioRegisters.totalSize < 2 ^ 32 ∧
      audioRange ∈ Soc.imx8qm.channelMap ∧
      (audioDocument audioRegisterProperties).find? audioRange.nodePath = some 2 ∧
      (audioDocument audioRegisterProperties).properties? 2 = some audioRegisterProperties ∧
      RegisterController audioRegisterProperties 0x591f0000 0x10000 audioChannels ∧
      (∀ r ∈ Soc.imx8qm.ranges audioRange.nodePath, r.channel? 0x591f0000 0x10000 = none) ∧
      ¬ (Fixup.result (reconcile (ownsAllBut [289, 290, 323]) Soc.imx8qm.channelMap)
        audioRegisters).2.OwnsRegisters (ownsAllBut [289, 290, 323])
          (Soc.imx8qm.ranges audioRange.nodePath) audioRange.nodePath := by
  have hsize : audioRegisters.totalSize < 2 ^ 32 := by decide +kernel
  refine ⟨stores_audioRegisters, rfl, hsize, audioRange_mem, find?_audioDocument _,
    properties?_audioDocument _, registerController_audioRegisters, channel?_audioRegisters, ?_⟩
  rw [(Growable.ofStores stores_audioRegisters rfl hsize).ownsRegisters_reconcile audioRange_mem
    (find?_audioDocument _) (properties?_audioDocument _) registerController_audioRegisters
    channel?_audioRegisters]
  decide +kernel

end Tree

end BootTree
