import BootTree.Edma.Reconcile
import BootTree.Proofs.Edma.Removal
import BootTree.Proofs.Fixup.Growth
import BootTree.Proofs.Tree.Paths

/-!
# BootTree.Proofs.Edma.Settle

What taking channels out does to the properties of a controller. Each range of a channel map changes
the properties of the one node that its path leads to, as a function of those properties only. All
values that replace others are not longer than they were, and the only property that may be new is
`dma-channel-mask`.

* `Edma.settle`: the properties of a controller after one range.
* `Document.settled`, `Document.reconciled`: the document after one range, and after a channel map.
* `Edma.arraysOf_eq_some_iff`: which properties make the arrays of a controller.
* `Edma.ChannelArrays.DecodedFrom`: arrays as the meaning of a node's values, whose places the
  compacted ones can take.
-/

namespace BootTree

namespace Edma

/-! ## On properties -/

/-- The mask after the channels of a range that are not owned were switched off. -/
def maskedBy (owns : Ownership) (range : ChannelRange) (channels mask : UInt32) : UInt32 :=
  (unowned owns (maskCandidates range channels mask)).foldl
    (fun mask c => withMasked mask c.index) mask

def settleMask (owns : Ownership) (range : ChannelRange) (properties : List Property) :
    List Property :=
  match valueOf? properties "interrupts", readAs Tree.singleCell properties "dma-channels",
    readAs Tree.singleCell properties "dma-channel-mask" with
  | some _, .ok channels, .ok old =>
    let mask := maskedBy owns range (channels.getD 0) (old.getD 0)
    if channels.getD 0 = 0 ∨ mask = old.getD 0 then properties
    else withValue "dma-channel-mask" (Bytes.word mask) properties
  | _, _, _ => properties

/-- The arrays of a controller, as `readArrays` takes them from its node. -/
def arraysOf (properties : List Property) (registers : List UInt32) :
    Except TreeError (Option ChannelArrays) := do
  let some interrupts ← readAs Cells.decode properties "interrupts" | return none
  let channels := (← readAs Tree.singleCell properties "dma-channels").getD 0
  if channels = 0 then return none
  let some interruptNames := valueOf? properties "interrupt-names" | return none
  let some powerDomains ← readAs Cells.decode properties "power-domains" | return none
  let some powerDomainNames := valueOf? properties "power-domain-names" | return none
  return some { registers, interrupts, channels, interruptNames, powerDomains, powerDomainNames }

def writeAll (writes : List (String × Bytes)) (properties : List Property) : List Property :=
  writes.foldl (fun properties w => withValue w.1 w.2 properties) properties

def settleRegisters (owns : Ownership) (range : ChannelRange) (registers : List UInt32)
    (properties : List Property) : List Property :=
  match arraysOf properties registers with
  | .ok (some arrays) =>
    let lost := unowned owns (registerCandidates range registers)
    if lost = [] then properties
    else writeAll (arrays.compact (RemovalSet.ofList (lost.map Candidate.index))).properties properties
  | _ => properties

/-- The properties of a controller without the channels of a range that are not owned. -/
def settle (owns : Ownership) (range : ChannelRange) (properties : List Property) :
    List Property :=
  match readAs Cells.decode properties "reg" with
  | .ok (some registers) =>
    if registers.length = 2 then settleMask owns range properties
    else settleRegisters owns range registers properties
  | _ => properties

end Edma

namespace Document

open Edma

/-- The document after one range of a channel map. -/
def settled (owns : Ownership) (range : ChannelRange) (doc : Document) : Document :=
  match doc.find? range.nodePath with
  | none => doc
  | some i => doc.alter (settle owns range) id i

/-- The document after a channel map. -/
def reconciled (owns : Ownership) (map : List ChannelRange) (doc : Document) : Document :=
  map.foldl (fun doc range => doc.settled owns range) doc

end Document

namespace Edma

/-! ## Values that are written -/

theorem valueOf?_writeAll_of_not_mem {writes : List (String × Bytes)} {name : Bytes}
    (h : ∀ w ∈ writes, name ≠ Bytes.ofText w.1) (properties : List Property) :
    valueOf? (writeAll writes properties) name = valueOf? properties name := by
  induction writes generalizing properties with
  | nil => rfl
  | cons w ws ih =>
    have hothers : ∀ v ∈ ws, name ≠ Bytes.ofText v.1 := by
      intro v hv
      exact h v (List.mem_cons_of_mem _ hv)
    have hrest := ih hothers (withValue w.1 w.2 properties)
    rw [valueOf?_withValue_of_ne (h w List.mem_cons_self)] at hrest
    exact hrest

/-- What was written is read, if no name is written twice. -/
theorem valueOf?_writeAll {writes : List (String × Bytes)}
    (hnodup : (writes.map fun w => Bytes.ofText w.1).Nodup) {w : String × Bytes} (hw : w ∈ writes)
    (properties : List Property) : valueOf? (writeAll writes properties) w.1 = some w.2 := by
  induction writes generalizing properties with
  | nil => cases hw
  | cons v vs ih =>
    rw [List.map_cons, List.nodup_cons] at hnodup
    rcases List.mem_cons.1 hw with rfl | hw
    · have hlater : ∀ u ∈ vs, Bytes.ofText w.1 ≠ Bytes.ofText u.1 := by
        intro u hu heq
        exact hnodup.1 (heq ▸ List.mem_map_of_mem hu)
      exact (valueOf?_writeAll_of_not_mem hlater _).trans (valueOf?_withValue _ _ _)
    · exact ih hnodup.2 hw _

/-- Which answers the arrays of a controller are made of. -/
theorem arrays_eq_some_iff {interrupts powerDomains : Except TreeError (Option (List UInt32))}
    {channels : Except TreeError (Option UInt32)}
    {interruptNames powerDomainNames : Except TreeError (Option Bytes)} {registers : List UInt32}
    {arrays : ChannelArrays} :
    (do
      let some interrupts ← interrupts | return none
      let channels := (← channels).getD 0
      if channels = 0 then return none
      let some interruptNames ← interruptNames | return none
      let some powerDomains ← powerDomains | return none
      let some powerDomainNames ← powerDomainNames | return none
      return some ⟨registers, interrupts, channels, interruptNames, powerDomains,
        powerDomainNames⟩ : Except TreeError (Option ChannelArrays)) = .ok (some arrays) ↔
      arrays.registers = registers ∧ arrays.channels ≠ 0 ∧
      interrupts = .ok (some arrays.interrupts) ∧ channels = .ok (some arrays.channels) ∧
      interruptNames = .ok (some arrays.interruptNames) ∧
      powerDomains = .ok (some arrays.powerDomains) ∧
      powerDomainNames = .ok (some arrays.powerDomainNames) := by
  constructor
  · intro h
    rcases interrupts with _ | _ | interrupts
    · cases h
    · cases h
    rcases channels with _ | _ | channels
    · cases h
    · cases h
    change (if channels = 0 then _ else _) = _ at h
    by_cases hchannels : channels = 0
    · rw [if_pos hchannels] at h
      cases h
    rw [if_neg hchannels] at h
    rcases interruptNames with _ | _ | interruptNames
    · cases h
    · cases h
    rcases powerDomains with _ | _ | powerDomains
    · cases h
    · cases h
    rcases powerDomainNames with _ | _ | powerDomainNames
    · cases h
    · cases h
    cases h
    exact ⟨rfl, hchannels, rfl, rfl, rfl, rfl, rfl⟩
  · rintro ⟨rfl, hchannels, rfl, rfl, rfl, rfl, rfl⟩
    simp [bind, Except.bind, pure, Except.pure, hchannels]

theorem arraysOf_eq_some_iff {properties : List Property} {registers : List UInt32}
    {arrays : ChannelArrays} :
    arraysOf properties registers = .ok (some arrays) ↔
      arrays.registers = registers ∧ arrays.channels ≠ 0 ∧
      readAs Cells.decode properties "interrupts" = .ok (some arrays.interrupts) ∧
      readAs Tree.singleCell properties "dma-channels" = .ok (some arrays.channels) ∧
      valueOf? properties "interrupt-names" = some arrays.interruptNames ∧
      readAs Cells.decode properties "power-domains" = .ok (some arrays.powerDomains) ∧
      valueOf? properties "power-domain-names" = some arrays.powerDomainNames := by
  have h := @arrays_eq_some_iff (readAs Cells.decode properties "interrupts")
    (readAs Cells.decode properties "power-domains")
    (readAs Tree.singleCell properties "dma-channels")
    (.ok (valueOf? properties "interrupt-names")) (.ok (valueOf? properties "power-domain-names"))
    registers arrays
  simpa only [arraysOf, bind, Except.bind, Except.ok.injEq] using h

/-- The six properties have six names. -/
theorem ChannelArrays.nodup_properties (arrays : ChannelArrays) :
    (arrays.properties.map fun w => Bytes.ofText w.1).Nodup := by
  change (["reg", "interrupts", "dma-channels", "interrupt-names", "power-domains",
    "power-domain-names"].map Bytes.ofText).Nodup
  simp

/-- The arrays of a controller are what the values under their names mean. -/
structure ChannelArrays.DecodedFrom (arrays : ChannelArrays) (holds : Bytes → Bytes → Prop) :
    Prop where
  registers : ∃ raw, holds "reg" raw ∧ Cells.decode raw = .ok arrays.registers
  interrupts : ∃ raw, holds "interrupts" raw ∧ Cells.decode raw = .ok arrays.interrupts
  channels : ∃ raw, holds "dma-channels" raw ∧ Tree.singleCell raw = .ok arrays.channels
  interruptNames : holds "interrupt-names" arrays.interruptNames
  powerDomains : ∃ raw, holds "power-domains" raw ∧ Cells.decode raw = .ok arrays.powerDomains
  powerDomainNames : holds "power-domain-names" arrays.powerDomainNames

namespace ChannelArrays.DecodedFrom

variable {arrays : ChannelArrays} {holds : Bytes → Bytes → Prop}

/-- The values of its properties are the arrays of a controller. -/
theorem holds_properties (h : arrays.DecodedFrom holds) :
    ∀ w ∈ arrays.properties, holds w.1 w.2 := by
  obtain ⟨_, hreg, hregRaw⟩ := h.registers
  obtain ⟨_, hinterrupts, hinterruptsRaw⟩ := h.interrupts
  obtain ⟨_, hchannels, hchannelsRaw⟩ := h.channels
  obtain ⟨_, hdomains, hdomainsRaw⟩ := h.powerDomains
  simp only [ChannelArrays.properties, List.forall_mem_cons]
  refine ⟨?_, ?_, ?_, h.interruptNames, ?_, h.powerDomainNames, by simp⟩
  · rwa [Cells.encode_of_decode hregRaw]
  · rwa [Cells.encode_of_decode hinterruptsRaw]
  · rwa [← eq_word_of_singleCell hchannelsRaw]
  · rwa [Cells.encode_of_decode hdomainsRaw]

/-- Each compacted array takes the place of a value that is not shorter. -/
theorem exists_longer_value (h : arrays.DecodedFrom holds) (set : RemovalSet) :
    ∀ w ∈ (arrays.compact set).properties, ∃ old, holds w.1 old ∧ w.2.length ≤ old.length := by
  have hvalues := h.holds_properties
  simp only [ChannelArrays.properties, List.forall_mem_cons] at hvalues ⊢
  obtain ⟨hreg, hinterrupts, hchannels, hnames, hdomains, hdomainNames, -⟩ := hvalues
  refine ⟨⟨_, hreg, ?_⟩, ⟨_, hinterrupts, ?_⟩, ⟨_, hchannels, Nat.le_refl _⟩,
    ⟨_, hnames, length_compactStrings_le _ _⟩, ⟨_, hdomains, ?_⟩,
    ⟨_, hdomainNames, length_compactStrings_le _ _⟩, by simp⟩
  all_goals
    rw [Cells.length_encode, Cells.length_encode]
    exact Nat.mul_le_mul_left 4 (length_compactRecords_le _ _ _)

end ChannelArrays.DecodedFrom

theorem decodedFrom_of_arraysOf {properties : List Property} {registers : List UInt32}
    {arrays : ChannelArrays} (hreg : readAs Cells.decode properties "reg" = .ok (some registers))
    (h : arraysOf properties registers = .ok (some arrays)) :
    arrays.DecodedFrom fun name value => valueOf? properties name = some value := by
  obtain ⟨rfl, -, hinterrupts, hchannels, hnames, hdomains, hdomainNames⟩ :=
    arraysOf_eq_some_iff.1 h
  exact ⟨readAs_eq_some_iff.1 hreg, readAs_eq_some_iff.1 hinterrupts, readAs_eq_some_iff.1 hchannels,
    hnames, readAs_eq_some_iff.1 hdomains, hdomainNames⟩

/-- Without channels there is nothing to switch off. -/
theorem settleMask_of_getD_eq_zero {properties : List Property} {channels : Option UInt32}
    {owns : Ownership} {range : ChannelRange}
    (h : readAs Tree.singleCell properties "dma-channels" = .ok channels)
    (hzero : channels.getD 0 = 0) : settleMask owns range properties = properties := by
  unfold settleMask
  rw [h]
  cases valueOf? properties "interrupts" with
  | none => rfl
  | some interrupts =>
    cases readAs Tree.singleCell properties "dma-channel-mask" with
    | error e => rfl
    | ok old => exact if_pos (.inl hzero)

end Edma

end BootTree
