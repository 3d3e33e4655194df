import BootTree.Proofs.Edma.Settle

/-!
# BootTree.Proofs.Edma.Channels

Controllers with a register range per channel. Their arrays describe a list of channels, and one
range of a channel map takes whole channels out of it: from some place in `reg` on, those that the
range assigns to resources that are not owned.

* `Edma.Channel`, `Edma.RegisterController`: a channel with its entries in all arrays, and a
  controller whose arrays describe some channels.
* `Edma.kept`: the channels that one range leaves.
* `Edma.RegisterController.settle`: a controller after one range.
* `Edma.RegisterController.ranges`: a controller after several ranges.
-/

namespace BootTree

namespace Edma

/-! ## Channels -/

/-- A channel of a controller, with what each of the controller's arrays has for it. -/
structure Channel where
  base : UInt32
  size : UInt32
  interrupt : List UInt32
  interruptName : Bytes
  powerDomain : List UInt32
  powerDomainName : Bytes
  length_interrupt : interrupt.length = 3
  length_powerDomain : powerDomain.length = 2
  zero_interruptName : 0 ∉ interruptName
  zero_powerDomainName : 0 ∉ powerDomainName

/-- The arrays of a controller with its own register range and some channels. -/
def ChannelArrays.ofChannels (base size : UInt32) (channels : List Channel) : ChannelArrays where
  registers := base :: size :: (channels.map fun c => [c.base, c.size]).flatten
  interrupts := (channels.map Channel.interrupt).flatten
  channels := UInt32.ofNat channels.length
  interruptNames := StringList.join (channels.map Channel.interruptName)
  powerDomains := (channels.map Channel.powerDomain).flatten
  powerDomainNames := StringList.join (channels.map Channel.powerDomainName)

/-- The properties of a controller whose arrays describe some channels. -/
structure RegisterController (properties : List Property) (base size : UInt32)
    (channels : List Channel) : Prop where
  values : ∀ w ∈ (ChannelArrays.ofChannels base size channels).properties,
    valueOf? properties w.1 = some w.2
  length_lt : channels.length < 2 ^ 32

/-- Whether a range assigns registers to a resource that is not owned. -/
def isForeign (owns : Ownership) (range : ChannelRange) (base size : UInt32) : Bool :=
  (range.channel? base size).any fun channel => !owns (range.startResource.nth channel)

/-- The channels that one range leaves. The controller's own registers count as the first entry of
`reg`. -/
def kept (owns : Ownership) (range : ChannelRange) (channels : List Channel) : List Channel :=
  channels.take (range.startChannel.toNat - 1) ++
    (channels.drop (range.startChannel.toNat - 1)).filter fun c =>
      !isForeign owns range c.base c.size

theorem kept_subset {owns : Ownership} {range : ChannelRange} {channels : List Channel} :
    kept owns range channels ⊆ channels := by
  intro c hc
  rcases List.mem_append.1 hc with hc | hc
  · exact List.mem_of_mem_take hc
  · exact List.mem_of_mem_drop (List.mem_filter.1 hc).1

/-! ## Taking channels out of the arrays -/

section Arrays

variable {base size : UInt32} {channels : List Channel} {owns : Ownership} {range : ChannelRange}

theorem splitRecords_registers (base size : UInt32) (channels : List Channel) :
    splitRecords 2 (ChannelArrays.ofChannels base size channels).registers =
      ([base, size] :: channels.map fun c => [c.base, c.size], []) := by
  have hrecords : ∀ record ∈ [base, size] :: channels.map (fun c => [c.base, c.size]),
      record.length = 2 := by simp
  have := splitRecords_flatten (by decide) hrecords
  rwa [List.flatten_cons] at this

/-- Taking the same channels out of all arrays. -/
theorem compact_ofChannels {set : RemovalSet} (hown : set.contains 0 = false)
    (hnodup : set.indices.Nodup) (hlt : ∀ k ∈ set.indices, k < channels.length + 1)
    (hlength : channels.length < 2 ^ 32) :
    (ChannelArrays.ofChannels base size channels).compact set =
      .ofChannels base size ((set.rebased 1).survivors channels) := by
  have hregisters : compactRecords 2 (ChannelArrays.ofChannels base size channels).registers set =
      base :: size ::
        (((set.rebased 1).survivors channels).map fun c => [c.base, c.size]).flatten := by
    rw [compactRecords, splitRecords_registers]
    dsimp only
    rw [RemovalSet.survivors_cons hown, RemovalSet.survivors_map]
    simp
  have hinterrupts : compactRecords 3 (channels.map Channel.interrupt).flatten (set.rebased 1) =
      (((set.rebased 1).survivors channels).map Channel.interrupt).flatten := by
    rw [compactRecords_flatten (by decide) (by simp [Channel.length_interrupt]),
      RemovalSet.survivors_map]
  have hdomains : compactRecords 2 (channels.map Channel.powerDomain).flatten (set.rebased 1) =
      (((set.rebased 1).survivors channels).map Channel.powerDomain).flatten := by
    rw [compactRecords_flatten (by decide) (by simp [Channel.length_powerDomain]),
      RemovalSet.survivors_map]
  have hcount : (UInt32.ofNat channels.length).toNat - set.size =
      ((set.rebased 1).survivors channels).length := by
    have hall : (set.survivors (none :: channels.map some)).length + set.size =
        channels.length + 1 := by
      rw [RemovalSet.length_survivors_add_size hnodup (by simpa using hlt)]
      simp
    rw [RemovalSet.survivors_cons hown, RemovalSet.survivors_map, List.length_cons,
      List.length_map] at hall
    rw [UInt32.toNat_ofNat', Nat.mod_eq_of_lt hlength]
    omega
  simp only [ChannelArrays.compact, ChannelArrays.ofChannels] at hregisters ⊢
  rw [hregisters, hinterrupts, hdomains, hcount,
    compactStrings_join (by simp [Channel.zero_interruptName]),
    compactStrings_join (by simp [Channel.zero_powerDomainName]), RemovalSet.survivors_map,
    RemovalSet.survivors_map]

/-! ## Channels that are lost -/

theorem mem_drop_zipIdx {α : Type} {entries : List α} {start : Nat} {entry : α × Nat} :
    entry ∈ entries.zipIdx.drop start ↔ start ≤ entry.2 ∧ entries[entry.2]? = some entry.1 := by
  rw [List.mem_iff_getElem?]
  simp only [List.getElem?_drop, List.getElem?_zipIdx, Nat.zero_add]
  constructor
  · rintro ⟨k, hk⟩
    obtain ⟨x, hx, rfl⟩ := Option.map_eq_some_iff.1 hk
    exact ⟨Nat.le_add_right _ _, hx⟩
  · rintro ⟨hle, hentry⟩
    refine ⟨entry.2 - start, ?_⟩
    rw [Nat.add_sub_cancel' hle, hentry]
    rfl

/-- The entries of `reg` from some place on that a range assigns to resources that are not owned. -/
theorem mem_lost {registers : List UInt32} {k : Nat} :
    k ∈ (unowned owns (registerCandidates range registers)).map Candidate.index ↔
      range.startChannel.toNat ≤ k ∧ ∃ base size,
        (splitRecords 2 registers).1[k]? = some [base, size] ∧
        isForeign owns range base size = true := by
  simp only [unowned, registerCandidates, List.mem_map, List.mem_filter, List.mem_filterMap]
  constructor
  · rintro ⟨c, ⟨⟨⟨record, index⟩, hmem, hc⟩, howns⟩, rfl⟩
    obtain ⟨hle, hrecord⟩ := mem_drop_zipIdx.1 hmem
    split at hc
    · rename_i base size _ heq
      cases heq
      obtain ⟨channel, hchannel, rfl⟩ := Option.map_eq_some_iff.1 hc
      exact ⟨hle, base, size, hrecord, by simpa [isForeign, hchannel] using howns⟩
    · cases hc
  · rintro ⟨hle, base, size, hrecord, hforeign⟩
    obtain ⟨channel, hchannel, howns⟩ := (Option.any_eq_true _ _).1 hforeign
    exact ⟨⟨k, range.startResource.nth channel⟩, ⟨⟨([base, size], k),
      mem_drop_zipIdx.2 ⟨hle, hrecord⟩, by simp [hchannel]⟩, howns⟩, rfl⟩

/-- The indices under which one range takes channels out. -/
def lostSet (owns : Ownership) (range : ChannelRange) (registers : List UInt32) : RemovalSet :=
  .ofList ((unowned owns (registerCandidates range registers)).map Candidate.index)

theorem contains_lostSet {registers : List UInt32} {k : Nat} :
    (lostSet owns range registers).contains k = true ↔
      range.startChannel.toNat ≤ k ∧ ∃ base size,
        (splitRecords 2 registers).1[k]? = some [base, size] ∧
        isForeign owns range base size = true := by
  rw [lostSet, RemovalSet.contains_eq_true, RemovalSet.mem_ofList, mem_lost]

/-- What one range leaves of a controller's arrays, if it does not mean the controller itself. -/
theorem compact_lostSet (hown : range.channel? base size = none)
    (hlength : channels.length < 2 ^ 32) :
    (ChannelArrays.ofChannels base size channels).compact
        (lostSet owns range (ChannelArrays.ofChannels base size channels).registers) =
      .ofChannels base size (kept owns range channels) := by
  have hforeign : isForeign owns range base size = false := by
    rw [isForeign, hown]
    rfl
  have hzero : (lostSet owns range
      (ChannelArrays.ofChannels base size channels).registers).contains 0 = false := by
    rw [Bool.eq_false_iff, Ne, contains_lostSet]
    rintro ⟨-, b, s, hfirst, hlost⟩
    rw [splitRecords_registers, List.getElem?_cons_zero] at hfirst
    cases hfirst
    rw [hforeign] at hlost
    cases hlost
  have hlt : ∀ k ∈ (lostSet owns range
      (ChannelArrays.ofChannels base size channels).registers).indices, k < channels.length + 1 := by
    intro k hk
    obtain ⟨-, b, s, hrecord, -⟩ := contains_lostSet.1 (RemovalSet.contains_eq_true.2 hk)
    obtain ⟨hlt, -⟩ := List.getElem?_eq_some_iff.1 hrecord
    simpa [splitRecords_registers] using hlt
  rw [compact_ofChannels hzero (RemovalSet.nodup_ofList _) hlt hlength]
  refine congrArg _ (RemovalSet.survivors_eq_take_append_filter ?_)
  intro j c hc
  rw [RemovalSet.contains_rebased, Bool.eq_iff_iff, contains_lostSet, splitRecords_registers,
    List.getElem?_cons_succ, List.getElem?_map, hc, Bool.and_eq_true, decide_eq_true_eq]
  refine and_congr (by omega) ?_
  constructor
  · rintro ⟨b, s, hrecord, hlost⟩
    cases hrecord
    exact hlost
  · intro hlost
    exact ⟨c.base, c.size, rfl, hlost⟩

theorem length_kept_le (owns : Ownership) (range : ChannelRange) (channels : List Channel) :
    (kept owns range channels).length ≤ channels.length := by
  have hfilter := List.length_filter_le (fun c => !isForeign owns range c.base c.size)
    (channels.drop (range.startChannel.toNat - 1))
  rw [kept, List.length_append, List.length_take]
  rw [List.length_drop] at hfilter
  omega

/-- A range that takes nothing out leaves all channels. -/
theorem kept_of_lost_eq_nil (h : unowned owns (registerCandidates range
      (ChannelArrays.ofChannels base size channels).registers) = []) :
    kept owns range channels = channels := by
  rw [kept, List.filter_eq_self.2, List.take_append_drop]
  intro c hc
  obtain ⟨j, hj⟩ := List.mem_iff_getElem?.1 hc
  rw [List.getElem?_drop] at hj
  rw [Bool.not_eq_true']
  by_contra hforeign
  have hlost : range.startChannel.toNat - 1 + j + 1 ∈ (unowned owns (registerCandidates range
      (ChannelArrays.ofChannels base size channels).registers)).map Candidate.index := by
    refine mem_lost.2 ⟨by omega, c.base, c.size, ?_, by simpa using hforeign⟩
    rw [splitRecords_registers, List.getElem?_cons_succ, List.getElem?_map, hj]
    rfl
  rw [h] at hlost
  cases hlost

end Arrays

namespace RegisterController

variable {properties : List Property} {base size : UInt32} {channels : List Channel}
  {owns : Ownership}

theorem arraysOf (h : RegisterController properties base size channels) :
    readAs Cells.decode properties "reg" =
        .ok (some (ChannelArrays.ofChannels base size channels).registers) ∧
      valueOf? properties "dma-channels" = some (Bytes.word (UInt32.ofNat channels.length)) ∧
      (channels ≠ [] → Edma.arraysOf properties
        (ChannelArrays.ofChannels base size channels).registers =
          .ok (some (.ofChannels base size channels))) := by
  have hvalues := h.values
  simp only [ChannelArrays.properties, List.forall_mem_cons] at hvalues
  obtain ⟨hreg, hinterrupts, hcount, hnames, hdomains, hdomainNames, -⟩ := hvalues
  refine ⟨readAs_eq_some_iff.2 ⟨_, hreg, Cells.decode_encode _⟩, hcount, ?_⟩
  intro hne
  have hpos : UInt32.ofNat channels.length ≠ 0 := by
    intro hzero
    have hlength := congrArg UInt32.toNat hzero
    rw [UInt32.toNat_ofNat', Nat.mod_eq_of_lt h.length_lt] at hlength
    exact hne (List.length_eq_zero_iff.1 hlength)
  exact arraysOf_eq_some_iff.2 ⟨rfl, hpos,
    readAs_eq_some_iff.2 ⟨_, hinterrupts, Cells.decode_encode _⟩,
    readAs_eq_some_iff.2 ⟨_, hcount, singleCell_word _⟩, hnames,
    readAs_eq_some_iff.2 ⟨_, hdomains, Cells.decode_encode _⟩, hdomainNames⟩

/-- A controller after one range that does not mean the controller itself. -/
theorem settle (h : RegisterController properties base size channels) (owns : Ownership)
    {range : ChannelRange} (hown : range.channel? base size = none) :
    RegisterController (settle owns range properties) base size (kept owns range channels) := by
  obtain ⟨hreg, hcount, harrays⟩ := h.arraysOf
  by_cases hempty : channels = []
  · -- without channels the controller looks like one with a mask, but it has no channels to switch off
    subst hempty
    have hsame : Edma.settle owns range properties = properties := by
      have hzero : readAs Tree.singleCell properties "dma-channels" = .ok (some 0) :=
        readAs_eq_some_iff.2 ⟨_, hcount, singleCell_word _⟩
      rw [Edma.settle, hreg]
      simp only [ChannelArrays.ofChannels, List.map_nil, List.flatten_nil, List.length_cons,
        List.length_nil, if_true]
      exact settleMask_of_getD_eq_zero hzero rfl
    rw [hsame]
    simpa [kept] using h
  · have hlength : (ChannelArrays.ofChannels base size channels).registers.length ≠ 2 := by
      obtain ⟨c, cs, rfl⟩ := List.exists_cons_of_ne_nil hempty
      simp [ChannelArrays.ofChannels]
    have hsettle : Edma.settle owns range properties = settleRegisters owns range
        (ChannelArrays.ofChannels base size channels).registers properties := by
      rw [Edma.settle, hreg]
      exact if_neg hlength
    rw [hsettle, settleRegisters, harrays hempty]
    dsimp only
    by_cases hlost : unowned owns (registerCandidates range
        (ChannelArrays.ofChannels base size channels).registers) = []
    · rw [if_pos hlost, kept_of_lost_eq_nil hlost]
      exact h
    · rw [if_neg hlost]
      have hcompact : (ChannelArrays.ofChannels base size channels).compact (RemovalSet.ofList
          ((unowned owns (registerCandidates range
            (ChannelArrays.ofChannels base size channels).registers)).map Candidate.index)) =
          .ofChannels base size (kept owns range channels) :=
        compact_lostSet hown h.length_lt
      rw [hcompact]
      constructor
      · intro w hw
        exact valueOf?_writeAll (ChannelArrays.nodup_properties _) hw _
      · exact Nat.lt_of_le_of_lt (length_kept_le owns range channels) h.length_lt

/-- A controller after some ranges. -/
theorem ranges (h : RegisterController properties base size channels) (owns : Ownership)
    {ranges : List ChannelRange} (hown : ∀ range ∈ ranges, range.channel? base size = none) :
    RegisterController (ranges.foldl (fun properties r => Edma.settle owns r properties) properties)
      base size (ranges.foldl (fun channels r => kept owns r channels) channels) := by
  induction ranges generalizing properties channels with
  | nil => exact h
  | cons range rest ih =>
    apply ih (h.settle owns (hown range List.mem_cons_self))
    intro r hr
    exact hown r (List.mem_cons_of_mem _ hr)

end RegisterController
end Edma

end BootTree
