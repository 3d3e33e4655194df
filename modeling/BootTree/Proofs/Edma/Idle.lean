import BootTree.Proofs.Edma.Frame

/-!
# BootTree.Proofs.Edma.Idle

Running a channel map again. A range that finds a controller as the whole map left it has nothing to
do, although other ranges came after it: they only set more bits of the mask, and the register ranges
that they leave only move to the front, where a range that starts behind its first channels does not
look. A controller may lose all register ranges but one and then be taken for one with a mask; if it
did not count more channels than it had registers for, it has none left to switch off.

* `Edma.Idle`: a range has nothing to do.
* `Edma.Counted`: a controller does not count more channels than it has registers for.
* `Edma.idle_settle`, `Edma.Idle.settle`: after its own turn, and after the turn of another range.
* `Document.idle_reconciled`: after a channel map all of its ranges are idle.
* `Edma.result_reconcile_of_idle`: idle ranges leave a tree as it is.
* `Tree.reconcile_reconcile`: a channel map does nothing when it is run again.
-/

namespace BootTree

/-- What is left at an index comes from the same index or one behind it. -/
theorem RemovalSet.exists_of_getElem?_survivors {α : Type} {set : RemovalSet} {entries : List α}
    {k : Nat} {x : α} (h : (set.survivors entries)[k]? = some x) :
    ∃ j, k ≤ j ∧ entries[j]? = some x ∧ set.contains j = false := by
  rw [survivors, List.getElem?_map] at h
  obtain ⟨⟨y, j⟩, hentry, rfl⟩ := Option.map_eq_some_iff.1 h
  obtain ⟨f, hf⟩ := List.sublist_iff_exists_orderEmbedding_getElem?_eq.1
    (List.filter_sublist (l := entries.zipIdx) (p := fun entry => !set.contains entry.2))
  have hleft := (List.mem_filter.1 (List.mem_of_getElem? hentry)).2
  rw [hf, List.getElem?_zipIdx, Nat.zero_add] at hentry
  obtain ⟨z, hz, heq⟩ := Option.map_eq_some_iff.1 hentry
  cases heq
  exact ⟨f k, f.strictMono.le_apply, hz, by simpa using hleft⟩

theorem length_splitRecords {α : Type} {stride : Nat} (hstride : 0 < stride) (cells : List α) :
    (splitRecords stride cells).1.length = cells.length / stride := by
  obtain ⟨hrecords, hrest⟩ := splitRecords_spec hstride cells
  have hall := congrArg List.length (flatten_splitRecords stride cells)
  rw [List.length_append, List.length_flatten, List.map_congr_left hrecords, List.map_const',
    List.sum_replicate, smul_eq_mul] at hall
  rw [← hall, Nat.mul_comm, Nat.mul_add_div hstride, Nat.div_eq_of_lt hrest, Nat.add_zero]

namespace Edma

variable {owns : Ownership} {range other : ChannelRange} {properties : List Property}
  {channels mask : UInt32} {registers : List UInt32}

/-- A range finds nothing to do in the properties of a controller. -/
structure Idle (owns : Ownership) (range : ChannelRange) (properties : List Property) : Prop where
  mask : ∀ {registers channels old}, readAs Cells.decode properties "reg" = .ok (some registers) →
    registers.length = 2 → (valueOf? properties "interrupts").isSome = true →
    readAs Tree.singleCell properties "dma-channels" = .ok (some channels) → channels ≠ 0 →
    readAs Tree.singleCell properties "dma-channel-mask" = .ok old →
    ∀ channel, Loses owns range channels channel → isMasked (old.getD 0) channel = true
  registers : ∀ {registers arrays},
    readAs Cells.decode properties "reg" = .ok (some registers) → registers.length ≠ 2 →
    arraysOf properties registers = .ok (some arrays) →
    unowned owns (registerCandidates range registers) = []

/-- A controller with a register range per channel, of which the first one is its own, does not
count more channels than that. -/
def Counted (properties : List Property) : Prop :=
  ∀ registers channels, readAs Cells.decode properties "reg" = .ok (some registers) →
    registers.length ≠ 2 →
    readAs Tree.singleCell properties "dma-channels" = .ok (some channels) →
    channels.toNat ≤ (splitRecords 2 registers).1.length - 1

/-- A controller whose arrays describe its channels counts them. -/
theorem RegisterController.counted {base size : UInt32} {channels : List Channel}
    (h : RegisterController properties base size channels) : Counted properties := by
  obtain ⟨hregisters, hchannels, -⟩ := h.arraysOf
  intro registers count hreg _ hcount
  rw [hregisters, Except.ok.injEq, Option.some.injEq] at hreg
  rw [readAs_eq_some_iff.2 ⟨_, hchannels, singleCell_word _⟩, Except.ok.injEq,
    Option.some.injEq] at hcount
  subst hreg hcount
  rw [splitRecords_registers, UInt32.toNat_ofNat', Nat.mod_eq_of_lt h.length_lt]
  simp

/-! ## Masks -/

theorem eq_of_isMasked {mask mask' : UInt32}
    (h : ∀ channel, isMasked mask channel = true ↔ isMasked mask' channel = true) :
    mask = mask' := by
  apply UInt32.toNat.inj
  apply Nat.eq_of_testBit_eq
  intro channel
  exact Bool.eq_iff_iff.2 (h channel)

theorem maskedBy_eq_self_iff : maskedBy owns range channels mask = mask ↔
    ∀ channel, Loses owns range channels channel → isMasked mask channel = true := by
  constructor
  · intro h channel hloses
    rw [← h, isMasked_maskedBy]
    exact .inr hloses
  · intro h
    apply eq_of_isMasked
    intro channel
    rw [isMasked_maskedBy]
    exact ⟨fun hset => hset.elim id (h channel), .inl⟩

/-- A range has nothing to do with a new mask that has its bits. -/
theorem idle_withMask {new : UInt32}
    (hreg : readAs Cells.decode properties "reg" = .ok (some registers))
    (hlength : registers.length = 2)
    (hset : (valueOf? properties "interrupts").isSome = true → ∀ channels,
      readAs Tree.singleCell properties "dma-channels" = .ok (some channels) → channels ≠ 0 →
      ∀ channel, Loses owns range channels channel → isMasked new channel = true) :
    Idle owns range (withValue "dma-channel-mask" (Bytes.word new) properties) := by
  have hvalue : readAs Tree.singleCell
      (withValue "dma-channel-mask" (Bytes.word new) properties) "dma-channel-mask" =
        .ok (some new) := @readAs_singleCell _ _ (some new) (valueOf?_withValue _ _ _)
  constructor
  · intro registers' channels old _ _ hinterrupts hcount hne hold
    rw [readAs_withMask (by simp)] at hcount
    rw [valueOf?_withValue_of_ne (by simp)] at hinterrupts
    rw [hvalue, Except.ok.injEq] at hold
    subst hold
    exact hset hinterrupts channels hcount hne
  · intro registers' arrays hreg' hlength'
    rw [readAs_withMask (by simp), hreg, Except.ok.injEq, Option.some.injEq] at hreg'
    subst hreg'
    exact absurd hlength hlength'

/-! ## Register ranges -/

theorem unowned_eq_nil_iff : unowned owns (registerCandidates range registers) = [] ↔
    ∀ k base size, range.startChannel.toNat ≤ k →
      (splitRecords 2 registers).1[k]? = some [base, size] →
      isForeign owns range base size = false := by
  rw [← List.map_eq_nil_iff (f := Candidate.index), List.eq_nil_iff_forall_not_mem]
  simp only [mem_lost, not_and, not_exists, Bool.not_eq_true]
  constructor
  · intro h k base size hle hrecord
    exact h k hle base size hrecord
  · intro h k hle base size hrecord
    exact h k base size hle hrecord

/-- A range that lost nothing still does not when other register ranges are gone. -/
theorem unowned_compactRecords (set : RemovalSet)
    (h : unowned owns (registerCandidates range registers) = []) :
    unowned owns (registerCandidates range (compactRecords 2 registers set)) = [] := by
  rw [unowned_eq_nil_iff] at h ⊢
  intro k base size hle hrecord
  rw [splitRecords_compactRecords Nat.two_pos] at hrecord
  obtain ⟨j, hkj, hold, -⟩ := RemovalSet.exists_of_getElem?_survivors hrecord
  exact h j base size (Nat.le_trans hle hkj) hold

/-- A range does not lose anything twice. -/
theorem unowned_compactRecords_lostSet (owns : Ownership) (range : ChannelRange)
    (registers : List UInt32) : unowned owns (registerCandidates range
      (compactRecords 2 registers (lostSet owns range registers))) = [] := by
  rw [unowned_eq_nil_iff]
  intro k base size hle hrecord
  rw [splitRecords_compactRecords Nat.two_pos] at hrecord
  obtain ⟨j, hkj, hold, hleft⟩ := RemovalSet.exists_of_getElem?_survivors hrecord
  rw [Bool.eq_false_iff, Ne, contains_lostSet] at hleft
  by_contra hforeign
  exact hleft ⟨Nat.le_trans hle hkj, base, size, hold, by simpa using hforeign⟩

theorem length_survivors_lostSet (owns : Ownership) (range : ChannelRange)
    (registers : List UInt32) :
    ((lostSet owns range registers).survivors (splitRecords 2 registers).1).length +
      (lostSet owns range registers).size = (splitRecords 2 registers).1.length := by
  refine RemovalSet.length_survivors_add_size (RemovalSet.nodup_ofList _) ?_
  intro k hk
  obtain ⟨-, _, _, hrecord, -⟩ := contains_lostSet.1 (RemovalSet.contains_eq_true.2 hk)
  exact (List.getElem?_eq_some_iff.1 hrecord).1

/-- What is read after arrays were compacted. -/
theorem readAs_compact (arrays : ChannelArrays) (set : RemovalSet) (properties : List Property) :
    readAs Cells.decode (writeAll (arrays.compact set).properties properties) "reg" =
        .ok (some (compactRecords 2 arrays.registers set)) ∧
      readAs Tree.singleCell (writeAll (arrays.compact set).properties properties) "dma-channels" =
        .ok (some (UInt32.ofNat (arrays.channels.toNat - set.size))) := by
  have hvalues := fun w hw => valueOf?_writeAll
    (ChannelArrays.nodup_properties (arrays.compact set)) (w := w) hw properties
  simp only [ChannelArrays.properties, List.forall_mem_cons] at hvalues
  obtain ⟨hreg, -, hcount, -⟩ := hvalues
  constructor
  · exact readAs_eq_some_iff.2 ⟨_, hreg, Cells.decode_encode _⟩
  · exact readAs_eq_some_iff.2 ⟨_, hcount, singleCell_word _⟩

/-- A controller that lost register ranges counts no more channels than it has registers for. -/
theorem count_compact {arrays : ChannelArrays} (h : Counted properties)
    (hreg : readAs Cells.decode properties "reg" = .ok (some registers))
    (hlength : registers.length ≠ 2) (harrays : arraysOf properties registers = .ok (some arrays)) :
    (UInt32.ofNat (arrays.channels.toNat - (lostSet owns range registers).size)).toNat ≤
      (splitRecords 2 (compactRecords 2 arrays.registers (lostSet owns range registers))).1.length -
        1 := by
  obtain ⟨rfl, -, -, hcount, -⟩ := arraysOf_eq_some_iff.1 harrays
  have hle := h _ _ hreg hlength hcount
  have hall := length_survivors_lostSet owns range arrays.registers
  have hlt := arrays.channels.toNat_lt
  rw [splitRecords_compactRecords Nat.two_pos, UInt32.toNat_ofNat', Nat.mod_eq_of_lt (by omega)]
  dsimp only
  omega

/-- Another range finds nothing to do in compacted arrays if none of the register ranges that are
left is lost to it. -/
theorem idle_compact {arrays : ChannelArrays} (h : Counted properties)
    (hreg : readAs Cells.decode properties "reg" = .ok (some registers))
    (hlength : registers.length ≠ 2) (harrays : arraysOf properties registers = .ok (some arrays))
    (hlost : unowned owns (registerCandidates range
      (compactRecords 2 registers (lostSet owns other registers))) = []) :
    Idle owns range
      (writeAll (arrays.compact (lostSet owns other registers)).properties properties) := by
  obtain ⟨hregAfter, hcountAfter⟩ := readAs_compact arrays
    (lostSet owns other registers) properties
  have hcounted := @count_compact owns other properties registers arrays h hreg hlength harrays
  obtain ⟨hregisters, -⟩ := arraysOf_eq_some_iff.1 harrays
  constructor
  · -- a controller that has only its own registers left counts no channels
    intro left channels old hleft htwo _ hcount hne _
    rw [hregAfter, Except.ok.injEq, Option.some.injEq] at hleft
    subst hleft
    rw [hcountAfter, Except.ok.injEq, Option.some.injEq] at hcount
    subst hcount
    rw [length_splitRecords Nat.two_pos, htwo] at hcounted
    exact absurd (UInt32.toNat.inj (Nat.le_zero.1 hcounted)) hne
  · intro left arrays' hleft _ _
    rw [hregAfter, Except.ok.injEq, Option.some.injEq] at hleft
    subst hleft
    rw [hregisters]
    exact hlost

/-! ## One range -/

theorem counted_settle (h : Counted properties) (owns : Ownership) (range : ChannelRange) :
    Counted (settle owns range properties) := by
  rcases settle_cases owns range properties with
    hsame | ⟨_, _, _, -, -, -, -, hmask⟩ | ⟨registers, arrays, hreg, hlength, harrays, hsettle⟩
  · rw [hsame]
    exact h
  · rw [hmask]
    intro registers channels hreg hlength hcount
    rw [readAs_withMask (by simp)] at hreg hcount
    exact h registers channels hreg hlength hcount
  · rw [hsettle]
    obtain ⟨hregAfter, hcountAfter⟩ := readAs_compact arrays
      (lostSet owns range registers) properties
    intro left channels hleft _ hcount
    rw [hregAfter, Except.ok.injEq, Option.some.injEq] at hleft
    rw [hcountAfter, Except.ok.injEq, Option.some.injEq] at hcount
    subst hleft hcount
    exact count_compact h hreg hlength harrays

/-- A range that changes nothing has nothing to do. -/
theorem idle_of_settle_eq (h : settle owns range properties = properties) :
    Idle owns range properties := by
  constructor
  · intro registers channels old hreg hlength hinterrupts hcount hne hold
    apply maskedBy_eq_self_iff.1
    obtain ⟨interrupts, hinterrupts⟩ := Option.isSome_iff_exists.1 hinterrupts
    by_contra hchanged
    have hsettle : settle owns range properties = withValue "dma-channel-mask"
        (Bytes.word (maskedBy owns range channels (old.getD 0))) properties := by
      rw [settle, hreg]
      simp [hlength, settleMask, hinterrupts, hcount, hold, hne, hchanged]
    have hnew := @readAs_singleCell _ _ (some (maskedBy owns range channels (old.getD 0)))
      (valueOf?_withValue properties "dma-channel-mask" _)
    rw [← hsettle, h, hold, Except.ok.injEq] at hnew
    exact hchanged (congrArg (Option.getD · 0) hnew).symm
  · intro registers arrays hreg hlength harrays
    by_contra hlost
    have hsettle : settle owns range properties =
        writeAll (arrays.compact (lostSet owns range registers)).properties properties := by
      rw [settle, hreg]
      simp only [hlength, if_false, settleRegisters, harrays, hlost]
      rfl
    obtain ⟨hregAfter, -⟩ := readAs_compact arrays (lostSet owns range registers)
      properties
    obtain ⟨hregisters, -⟩ := arraysOf_eq_some_iff.1 harrays
    rw [← hsettle, h, hreg, Except.ok.injEq, Option.some.injEq, hregisters] at hregAfter
    have hagain := unowned_compactRecords_lostSet owns range registers
    rw [← hregAfter] at hagain
    exact hlost hagain

/-- A range has nothing to do after its own turn. -/
theorem idle_settle (h : Counted properties) (owns : Ownership) (range : ChannelRange) :
    Idle owns range (settle owns range properties) := by
  rcases settle_cases owns range properties with
    hsame | ⟨registers, channels, old, hreg, hlength, hcount, -, hmask⟩ |
      ⟨registers, arrays, hreg, hlength, harrays, hsettle⟩
  · rw [hsame]
    exact idle_of_settle_eq hsame
  · rw [hmask]
    refine idle_withMask hreg hlength ?_
    intro _ channels' hcount' _ channel hloses
    rw [hcount, Except.ok.injEq, Option.some.injEq] at hcount'
    subst hcount'
    exact (isMasked_maskedBy owns range channels _ channel).2 (.inr hloses)
  · rw [hsettle]
    exact idle_compact h hreg hlength harrays (unowned_compactRecords_lostSet owns range registers)

/-- A range that has nothing to do still has not after the turn of another one. -/
theorem Idle.settle (hidle : Idle owns range properties) (h : Counted properties)
    (other : ChannelRange) : Idle owns range (settle owns other properties) := by
  rcases settle_cases owns other properties with
    hsame | ⟨registers, channels, old, hreg, hlength, hcount, hold, hmask⟩ |
      ⟨registers, arrays, hreg, hlength, harrays, hsettle⟩
  · rw [hsame]
    exact hidle
  · rw [hmask]
    refine idle_withMask hreg hlength ?_
    intro hinterrupts channels' hcount' hne channel hloses
    have hset := hidle.mask hreg hlength hinterrupts hcount' hne hold channel hloses
    exact (isMasked_maskedBy owns other channels _ channel).2 (.inl hset)
  · rw [hsettle]
    have hlost := hidle.registers hreg hlength harrays
    exact idle_compact h hreg hlength harrays (unowned_compactRecords _ hlost)

/-! ## Some ranges -/

theorem Idle.ranges (hidle : Idle owns range properties) (h : Counted properties)
    (ranges : List ChannelRange) : Idle owns range
      (ranges.foldl (fun properties r => Edma.settle owns r properties) properties) := by
  induction ranges generalizing properties with
  | nil => exact hidle
  | cons other rest ih => exact ih (hidle.settle h other) (counted_settle h owns other)

/-- Every range has nothing to do after the last one's turn. -/
theorem idle_ranges (h : Counted properties) {ranges : List ChannelRange} (hrange : range ∈ ranges) :
    Idle owns range (ranges.foldl (fun properties r => settle owns r properties) properties) := by
  induction ranges generalizing properties with
  | nil => cases hrange
  | cons first rest ih =>
    have hcounted := counted_settle h owns first
    rcases List.mem_cons.1 hrange with rfl | hrange
    · exact (idle_settle h owns range).ranges hcounted rest
    · exact ih hcounted hrange

/-! ## Runs without writes -/

section Runs

variable {tree : Tree} {doc : Document} {i : Nat} {ref : NodeRef}

theorem result_maskChannels_of_idle (h : tree.Stores doc) (href : tree.nodes[i]? = some ref)
    (hproperties : doc.properties? i = some properties)
    (hreg : readAs Cells.decode properties "reg" = .ok (some registers))
    (hlength : registers.length = 2) (hidle : Idle owns range properties) :
    ((maskChannels owns range ref).result tree).2 = tree := by
  rcases maskChannels_cases h href hproperties owns range with ⟨outcome, hresult, -⟩ |
    ⟨channels, old, hinterrupts, hchannels, hzero, hold, hresult⟩
  · rw [hresult]
  · have hsame : maskedBy owns range channels (old.getD 0) = old.getD 0 :=
      maskedBy_eq_self_iff.2 (hidle.mask hreg hlength hinterrupts hchannels hzero hold)
    rw [hresult, if_neg (not_not_intro hsame)]
    rfl

theorem result_dropChannels_of_idle (h : tree.Stores doc) (href : tree.nodes[i]? = some ref)
    (hproperties : doc.properties? i = some properties)
    (hreg : readAs Cells.decode properties "reg" = .ok (some registers))
    (hlength : registers.length ≠ 2) (hidle : Idle owns range properties) :
    ((dropChannels owns range ref registers).result tree).2 = tree := by
  rw [result_dropChannels_eq, readArrays_eq h href hproperties]
  cases harrays : arraysOf properties registers with
  | error e => rfl
  | ok found =>
    cases found with
    | none => rfl
    | some arrays =>
      dsimp only
      rw [if_pos (hidle.registers hreg hlength harrays)]

/-- A range that has nothing to do at the node that its path leads to leaves the tree as it is. -/
theorem result_reconcileRange_of_idle (h : tree.Stores doc)
    (hidle : ∀ i properties, doc.find? range.nodePath = some i →
      doc.properties? i = some properties → Idle owns range properties) :
    (Fixup.result (reconcileRange owns range) tree).2 = tree := by
  rcases h.reconcileRange_cases owns range true with ⟨hafter, -⟩ |
    ⟨i, ref, properties, registers, hfind, href, hproperties, hreg, hafter⟩
  · exact hafter
  · have hnothing := hidle i properties hfind hproperties
    rw [hafter]
    split
    · rename_i hlength
      exact result_maskChannels_of_idle h href hproperties hreg hlength hnothing
    · rename_i hlength
      exact result_dropChannels_of_idle h href hproperties hreg hlength hnothing

theorem result_reconcile_of_idle {map : List ChannelRange} (h : tree.Stores doc)
    (hidle : ∀ range ∈ map, ∀ i properties, doc.find? range.nodePath = some i →
      doc.properties? i = some properties → Idle owns range properties) :
    (Fixup.result (reconcile owns map) tree).2 = tree := by
  induction map with
  | nil => rfl
  | cons range rest ih =>
    have hfirst : (Fixup.result (reconcileRange owns range) tree).2 = tree :=
      result_reconcileRange_of_idle h (hidle range List.mem_cons_self)
    rw [result_reconcile_cons, hfirst]
    apply ih
    intro r hr
    exact hidle r (List.mem_cons_of_mem _ hr)

end Runs

end Edma

/-! ## A channel map -/

/-- No controller with a register range per channel that a channel map names counts more channels
than it has registers for. -/
def Document.Counted (doc : Document) (map : List Edma.ChannelRange) : Prop :=
  ∀ range ∈ map, ∀ i properties, doc.find? range.nodePath = some i →
    doc.properties? i = some properties → Edma.Counted properties

/-- All ranges have nothing to do after a channel map. -/
theorem Document.idle_reconciled {doc : Document} {owns : Ownership}
    {map : List Edma.ChannelRange} {range : Edma.ChannelRange} {i : Nat} {properties : List Property}
    (h : doc.Counted map) (hrange : range ∈ map)
    (hfind : (doc.reconciled owns map).find? range.nodePath = some i)
    (hproperties : (doc.reconciled owns map).properties? i = some properties) :
    Edma.Idle owns range properties := by
  rw [find?_reconciled] at hfind
  rw [properties?_reconciled] at hproperties
  obtain ⟨before, hbefore, rfl⟩ := Option.map_eq_some_iff.1 hproperties
  exact Edma.idle_ranges (h range hrange i before hfind hbefore)
    (List.mem_filter.2 ⟨hrange, by simpa using hfind⟩)

namespace Tree

open Edma

variable {tree : Tree} {doc : Document} {owns : Ownership} {map : List ChannelRange}

/-- **A channel map does nothing when it is run again.** In a tree without a limit, if no controller
with a register range per channel counts more channels than it has registers for, a second run leaves
the tree as the first one left it. -/
theorem reconcile_reconcile (hdoc : tree.Stores doc) (hunlimited : tree.maxSize = none)
    (hsize : tree.totalSize < 2 ^ 32) (hcounted : doc.Counted map) :
    (Fixup.result (reconcile owns map) (Fixup.result (reconcile owns map) tree).2).2 =
      (Fixup.result (reconcile owns map) tree).2 := by
  have hfirst : Growable maskName (Fixup.result (reconcile owns map) tree).2
      (doc.reconciled owns map) := (Growable.ofStores hdoc hunlimited hsize).reconcile map
  refine result_reconcile_of_idle hfirst.stores ?_
  intro range hrange i properties hfind hproperties
  exact Document.idle_reconciled hcounted hrange hfind hproperties

/-- The first range of the audio DMA controller takes its first two channels out, and so the second
one passes over the sixth, which now stands in front of it. It does so again. -/
theorem reconcile_reconcile_audioRegisters :
    (audioDocument audioRegisterProperties).Counted Soc.imx8qm.channelMap ∧
      (Fixup.result (reconcile (ownsAllBut [289, 290, 323]) Soc.imx8qm.channelMap)
        (Fixup.result (reconcile (ownsAllBut [289, 290, 323]) Soc.imx8qm.channelMap)
          audioRegisters).2).2 =
      (Fixup.result (reconcile (ownsAllBut [289, 290, 323]) Soc.imx8qm.channelMap)
        audioRegisters).2 := by
  have hcounted : (audioDocument audioRegisterProperties).Counted Soc.imx8qm.channelMap := by
    have hplace : ∀ range ∈ Soc.imx8qm.channelMap,
        (audioDocument audioRegisterProperties).find? range.nodePath = none ∨
          (audioDocument audioRegisterProperties).find? range.nodePath = some 2 := by
      decide +kernel
    intro range hrange i properties hfind hproperties
    rcases hplace range hrange with hnone | hsome
    · rw [hnone] at hfind
      cases hfind
    · rw [hsome, Option.some.injEq] at hfind
      subst hfind
      rw [properties?_audioDocument, Option.some.injEq] at hproperties
      subst hproperties
      exact registerController_audioRegisters.counted
  exact ⟨hcounted, reconcile_reconcile stores_audioRegisters rfl (by decide +kernel) hcounted⟩

end Tree

end BootTree
