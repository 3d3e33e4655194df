import BootTree.Proofs.Document.Overlay
import BootTree.Proofs.Edma.Dropping
import BootTree.Proofs.Edma.Masking

/-!
# BootTree.Proofs.Edma.Trimming

What a channel map may do to the properties of a node, whatever they hold. The arrays of a
controller need not fit together, ranges may overlap, and a limit of the tree's size may keep a write
from being made. Still only the seven properties of a controller change, a register range goes only
if some range of the map assigns it to a resource that is not owned, and bits of the mask are only
ever set.

* `Edma.Settled`: properties before and after some ranges.
* `Edma.settle_cases`: what one range does.
* `Edma.Trimmed`: what some ranges may do.
* `Edma.Settled.trimmed`: they do no more than that.
-/

namespace BootTree

namespace Edma

/-- The names of the properties of a controller. -/
def controllerNames : List Bytes :=
  ["reg", "interrupts", "interrupt-names", "power-domains", "power-domain-names", "dma-channels",
    "dma-channel-mask"]

/-- Properties before and after some ranges of a channel map. The write of a mask may not have been
made. -/
inductive Settled (owns : Ownership) :
    List ChannelRange → List Property → List Property → Prop where
  | nil (properties : List Property) : Settled owns [] properties properties
  | settle {range : ChannelRange} {ranges : List ChannelRange} {before after : List Property} :
      Settled owns ranges (settle owns range before) after →
      Settled owns (range :: ranges) before after
  | skip {range : ChannelRange} {ranges : List ChannelRange} {before after : List Property} :
      Settled owns ranges before after → Settled owns (range :: ranges) before after

variable {owns : Ownership} {range : ChannelRange} {ranges : List ChannelRange}
  {properties before after : List Property}

/-! ## One range -/

/-- Nothing, a new mask, or shorter arrays. -/
theorem settle_cases (owns : Ownership) (range : ChannelRange) (properties : List Property) :
    settle owns range properties = properties ∨
    (∃ registers channels old, readAs Cells.decode properties "reg" = .ok (some registers) ∧
      registers.length = 2 ∧
      readAs Tree.singleCell properties "dma-channels" = .ok (some channels) ∧
      readAs Tree.singleCell properties "dma-channel-mask" = .ok old ∧
      settle owns range properties = withValue "dma-channel-mask"
        (Bytes.word (maskedBy owns range channels (old.getD 0))) properties) ∨
    (∃ registers arrays, readAs Cells.decode properties "reg" = .ok (some registers) ∧
      registers.length ≠ 2 ∧ arraysOf properties registers = .ok (some arrays) ∧
      settle owns range properties =
        writeAll (arrays.compact (lostSet owns range registers)).properties properties) := by
  cases hreg : readAs Cells.decode properties "reg" with
  | error e => exact .inl (by simp [settle, hreg])
  | ok found =>
    cases found with
    | none => exact .inl (by simp [settle, hreg])
    | some registers =>
      by_cases hlength : registers.length = 2
      · have hsettle : settle owns range properties = settleMask owns range properties := by
          simp [settle, hreg, hlength]
        rw [hsettle]
        cases hinterrupts : valueOf? properties "interrupts" with
        | none => exact .inl (by simp [settleMask, hinterrupts])
        | some interrupts =>
          cases hchannels : readAs Tree.singleCell properties "dma-channels" with
          | error e => exact .inl (by simp [settleMask, hinterrupts, hchannels])
          | ok channels =>
            cases channels with
            | none => exact .inl (settleMask_of_getD_eq_zero hchannels rfl)
            | some channels =>
              cases hold : readAs Tree.singleCell properties "dma-channel-mask" with
              | error e => exact .inl (by simp [settleMask, hinterrupts, hchannels, hold])
              | ok old =>
                simp only [settleMask, hinterrupts, hchannels, hold, Option.getD_some]
                split
                · exact .inl rfl
                · exact .inr (.inl ⟨registers, channels, old, rfl, hlength, rfl, rfl, rfl⟩)
      · have hsettle : settle owns range properties =
            settleRegisters owns range registers properties := by
          simp [settle, hreg, hlength]
        rw [hsettle, settleRegisters]
        cases harrays : arraysOf properties registers with
        | error e => exact .inl rfl
        | ok found =>
          cases found with
          | none => exact .inl rfl
          | some arrays =>
            dsimp only
            split
            · exact .inl rfl
            · exact .inr (.inr ⟨registers, arrays, rfl, hlength, harrays, rfl⟩)

theorem overlay_writeAll {may : Bytes → Bytes → Prop} {writes : List (String × Bytes)}
    (h : ∀ w ∈ writes, may w.1 w.2) (properties : List Property) :
    Overlay may properties (writeAll writes properties) := by
  induction writes generalizing properties with
  | nil => exact .refl may properties
  | cons w ws ih =>
    have hfirst : Overlay may properties (withValue w.1 w.2 properties) :=
      .withValue (h w List.mem_cons_self) properties
    refine hfirst.trans (ih ?_ _)
    intro v hv
    exact h v (List.mem_cons_of_mem _ hv)

theorem ChannelArrays.mem_controllerNames (arrays : ChannelArrays) :
    ∀ w ∈ arrays.properties, Bytes.ofText w.1 ∈ controllerNames := by
  simp [ChannelArrays.properties, controllerNames]

theorem overlay_settle (owns : Ownership) (range : ChannelRange) (properties : List Property) :
    Overlay (fun name _ => name ∈ controllerNames) properties (settle owns range properties) := by
  rcases settle_cases owns range properties with
    hsame | ⟨_, _, _, -, -, -, -, hmask⟩ | ⟨_, arrays, -, -, -, harrays⟩
  · rw [hsame]
    exact .refl _ properties
  · rw [hmask]
    exact .withValue (by simp [controllerNames]) properties
  · rw [harrays]
    exact overlay_writeAll (ChannelArrays.mem_controllerNames _) properties

theorem readAs_congr {α : Type} {decode : Bytes → Except ValueError α} {name : Bytes}
    (h : valueOf? after name = valueOf? before name) :
    readAs decode after name = readAs decode before name := by
  rw [readAs, readAs, h]

theorem readAs_withMask {α : Type} {decode : Bytes → Except ValueError α} {name : Bytes}
    (hname : name ≠ Bytes.ofText "dma-channel-mask") (mask : Bytes) (properties : List Property) :
    readAs decode (withValue "dma-channel-mask" mask properties) name =
      readAs decode properties name :=
  readAs_congr (valueOf?_withValue_of_ne hname mask properties)

/-- Register ranges that some range of a map assigns to a resource that is not owned. -/
def Foreign (owns : Ownership) (ranges : List ChannelRange) (record : List UInt32) : Prop :=
  ∃ range ∈ ranges, ∃ base size, record = [base, size] ∧ isForeign owns range base size = true

/-- What `reg` holds after register ranges were taken out of it. -/
structure RegistersLeft (owns : Ownership) (ranges : List ChannelRange) (old new : List UInt32) :
    Prop where
  records : LeftOut (Foreign owns ranges) (splitRecords 2 old).1 (splitRecords 2 new).1
  rest : (splitRecords 2 new).2 = (splitRecords 2 old).2

theorem registers_settle {old : List UInt32}
    (h : readAs Cells.decode properties "reg" = .ok (some old)) :
    ∃ new, readAs Cells.decode (settle owns range properties) "reg" = .ok (some new) ∧
      RegistersLeft owns [range] old new := by
  rcases settle_cases owns range properties with
    hsame | ⟨_, _, _, -, -, -, -, hmask⟩ | ⟨registers, arrays, hreg, -, hread, harrays⟩
  · rw [hsame]
    exact ⟨old, h, .refl _ _, rfl⟩
  · rw [hmask, readAs_withMask (by simp)]
    exact ⟨old, h, .refl _ _, rfl⟩
  · rw [h, Except.ok.injEq, Option.some.injEq] at hreg
    subst hreg
    obtain ⟨hregisters, -⟩ := arraysOf_eq_some_iff.1 hread
    have hvalue := valueOf?_writeAll
      (ChannelArrays.nodup_properties (arrays.compact (lostSet owns range old)))
      (w := ("reg", Cells.encode (compactRecords 2 old (lostSet owns range old))))
      (by simp [ChannelArrays.properties, ChannelArrays.compact, hregisters]) properties
    have hsplit := splitRecords_compactRecords Nat.two_pos old (lostSet owns range old)
    refine ⟨compactRecords 2 old (lostSet owns range old), ?_, ?_, ?_⟩
    · rw [harrays, readAs, hvalue]
      dsimp only
      rw [Cells.decode_encode]
    · rw [hsplit]
      refine LeftOut.survivors ?_
      intro k record hrecord hmem
      obtain ⟨-, base, size, hfound, hforeign⟩ := contains_lostSet.1 hmem
      rw [hrecord, Option.some.injEq] at hfound
      exact ⟨range, List.mem_singleton_self range, base, size, hfound, hforeign⟩
    · rw [hsplit]

theorem count_settle {left : UInt32}
    (h : readAs Tree.singleCell (settle owns range properties) "dma-channels" = .ok (some left)) :
    ∃ channels, readAs Tree.singleCell properties "dma-channels" = .ok (some channels) ∧
      left ≤ channels := by
  rcases settle_cases owns range properties with
    hsame | ⟨_, _, _, -, -, -, -, hmask⟩ | ⟨registers, arrays, -, -, hread, harrays⟩
  · rw [hsame] at h
    exact ⟨left, h, UInt32.le_refl left⟩
  · rw [hmask, readAs_withMask (by simp)] at h
    exact ⟨left, h, UInt32.le_refl left⟩
  · obtain ⟨-, -, -, hchannels, -⟩ := arraysOf_eq_some_iff.1 hread
    have hvalue := valueOf?_writeAll
      (ChannelArrays.nodup_properties (arrays.compact (lostSet owns range registers)))
      (w := ("dma-channels", Bytes.word (UInt32.ofNat
        (arrays.channels.toNat - (lostSet owns range registers).size))))
      (by simp [ChannelArrays.properties, ChannelArrays.compact]) properties
    have hcell := @readAs_singleCell _ "dma-channels" (some _) hvalue
    rw [harrays, hcell, Except.ok.injEq, Option.some.injEq] at h
    refine ⟨arrays.channels, hchannels, ?_⟩
    have hlt := arrays.channels.toNat_lt
    rw [← h, UInt32.le_iff_toNat_le, UInt32.toNat_ofNat', Nat.mod_eq_of_lt (by omega)]
    omega

/-- A mask is only changed in a controller with a single register range. -/
theorem mask_settle {old : Option UInt32}
    (h : readAs Tree.singleCell properties "dma-channel-mask" = .ok old) :
    readAs Tree.singleCell (settle owns range properties) "dma-channel-mask" = .ok old ∨
    ∃ registers channels, readAs Cells.decode properties "reg" = .ok (some registers) ∧
      registers.length = 2 ∧
      readAs Tree.singleCell properties "dma-channels" = .ok (some channels) ∧
      readAs Tree.singleCell (settle owns range properties) "dma-channel-mask" =
        .ok (some (maskedBy owns range channels (old.getD 0))) := by
  rcases settle_cases owns range properties with
    hsame | ⟨registers, channels, _, hreg, hlength, hchannels, hold, hmask⟩ |
      ⟨_, arrays, -, -, -, harrays⟩
  · left
    rw [hsame, h]
  · rw [h, Except.ok.injEq] at hold
    subst hold
    refine .inr ⟨registers, channels, hreg, hlength, hchannels, ?_⟩
    rw [hmask]
    exact readAs_singleCell (valueOf?_withValue _ _ _)
  · left
    rw [harrays, ← h]
    exact readAs_congr (valueOf?_writeAll_of_not_mem
      (by simp [ChannelArrays.properties]) properties)

theorem otherMask_settle
    (h : ∀ old, readAs Tree.singleCell properties "dma-channel-mask" ≠ .ok old) :
    valueOf? (settle owns range properties) "dma-channel-mask" =
      valueOf? properties "dma-channel-mask" := by
  rcases settle_cases owns range properties with
    hsame | ⟨_, _, old, -, -, -, hold, -⟩ | ⟨_, arrays, -, -, -, harrays⟩
  · rw [hsame]
  · exact absurd hold (h old)
  · rw [harrays]
    exact valueOf?_writeAll_of_not_mem (by simp [ChannelArrays.properties]) properties

/-- A controller with a single register range keeps it, and its number of channels. -/
theorem single_settle {registers : List UInt32}
    (h : readAs Cells.decode properties "reg" = .ok (some registers))
    (hlength : registers.length = 2) :
    readAs Cells.decode (settle owns range properties) "reg" = .ok (some registers) ∧
      readAs Tree.singleCell (settle owns range properties) "dma-channels" =
        readAs Tree.singleCell properties "dma-channels" := by
  rcases settle_cases owns range properties with
    hsame | ⟨_, _, _, -, -, -, -, hmask⟩ | ⟨_, arrays, hreg, hmany, -⟩
  · rw [hsame]
    exact ⟨h, rfl⟩
  · rw [hmask, readAs_withMask (by simp), readAs_withMask (by simp)]
    exact ⟨h, rfl⟩
  · rw [h, Except.ok.injEq, Option.some.injEq] at hreg
    subst hreg
    exact absurd hlength hmany

theorem settle_of_malformed
    (h : ∀ registers, readAs Cells.decode properties "reg" ≠ .ok (some registers)) :
    settle owns range properties = properties := by
  rcases settle_cases owns range properties with
    hsame | ⟨registers, _, _, hreg, -⟩ | ⟨registers, _, hreg, -⟩
  · exact hsame
  · exact absurd hreg (h registers)
  · exact absurd hreg (h registers)

/-! ## Some ranges -/

/-- A mask before and after some ranges, in a controller that is left with these properties. A mask
that is missing has no bits. -/
structure MaskLeft (owns : Ownership) (ranges : List ChannelRange) (after : List Property)
    (old new : Option UInt32) : Prop where
  kept : ∀ channel, isMasked (old.getD 0) channel = true → isMasked (new.getD 0) channel = true
  lost : ∀ channel, isMasked (new.getD 0) channel = true → isMasked (old.getD 0) channel = true ∨
    ∃ range ∈ ranges, ∃ channels,
      readAs Tree.singleCell after "dma-channels" = .ok (some channels) ∧
      Loses owns range channels channel

namespace MaskLeft

variable {old new : Option UInt32}

theorem refl (owns : Ownership) (ranges : List ChannelRange) (after : List Property)
    (mask : Option UInt32) : MaskLeft owns ranges after mask mask :=
  ⟨fun _ => id, fun _ => .inl⟩

theorem cons (h : MaskLeft owns ranges after old new) (range : ChannelRange) :
    MaskLeft owns (range :: ranges) after old new := by
  refine ⟨h.kept, ?_⟩
  intro channel hset
  rcases h.lost channel hset with hbefore | ⟨other, hother, hloses⟩
  · exact .inl hbefore
  · exact .inr ⟨other, List.mem_cons_of_mem _ hother, hloses⟩

theorem cons_maskedBy {channels : UInt32}
    (h : MaskLeft owns ranges after (some (maskedBy owns range channels (old.getD 0))) new)
    (hchannels : readAs Tree.singleCell after "dma-channels" = .ok (some channels)) :
    MaskLeft owns (range :: ranges) after old new := by
  have hbits (channel : Nat) := isMasked_maskedBy owns range channels (old.getD 0) channel
  refine ⟨?_, ?_⟩
  · intro channel hset
    exact h.kept channel ((hbits channel).2 (.inl hset))
  · intro channel hset
    rcases h.lost channel hset with hbefore | ⟨other, hother, hloses⟩
    · rcases (hbits channel).1 hbefore with hold | hloses
      · exact .inl hold
      · exact .inr ⟨range, List.mem_cons_self, channels, hchannels, hloses⟩
    · exact .inr ⟨other, List.mem_cons_of_mem _ hother, hloses⟩

end MaskLeft

/-- What a channel map may do to the properties of a node. These of its ranges lead to the node. -/
structure Trimmed (owns : Ownership) (ranges : List ChannelRange) (before after : List Property) :
    Prop where
  unreached : ranges = [] → after = before
  overlay : Overlay (fun name _ => name ∈ controllerNames) before after
  registers : ∀ old, readAs Cells.decode before "reg" = .ok (some old) →
    ∃ new, readAs Cells.decode after "reg" = .ok (some new) ∧ RegistersLeft owns ranges old new
  malformed : (∀ old, readAs Cells.decode before "reg" ≠ .ok (some old)) → after = before
  count : ∀ left, readAs Tree.singleCell after "dma-channels" = .ok (some left) →
    ∃ channels, readAs Tree.singleCell before "dma-channels" = .ok (some channels) ∧
      left ≤ channels
  mask : ∀ old, readAs Tree.singleCell before "dma-channel-mask" = .ok old →
    ∃ new, readAs Tree.singleCell after "dma-channel-mask" = .ok new ∧
      MaskLeft owns ranges after old new
  otherMask : (∀ old, readAs Tree.singleCell before "dma-channel-mask" ≠ .ok old) →
    valueOf? after "dma-channel-mask" = valueOf? before "dma-channel-mask"

namespace Settled

theorem single {registers : List UInt32} (h : Settled owns ranges before after)
    (hreg : readAs Cells.decode before "reg" = .ok (some registers))
    (hlength : registers.length = 2) :
    readAs Tree.singleCell after "dma-channels" =
      readAs Tree.singleCell before "dma-channels" := by
  induction h with
  | nil => rfl
  | settle _ ih =>
    obtain ⟨hreg', hcount⟩ := single_settle hreg hlength
    rw [ih hreg', hcount]
  | skip _ ih => exact ih hreg

theorem overlay (h : Settled owns ranges before after) :
    Overlay (fun name _ => name ∈ controllerNames) before after := by
  induction h with
  | nil properties => exact .refl _ properties
  | settle _ ih => exact (overlay_settle owns _ _).trans ih
  | skip _ ih => exact ih

theorem registers {old : List UInt32} (h : Settled owns ranges before after)
    (hold : readAs Cells.decode before "reg" = .ok (some old)) :
    ∃ new, readAs Cells.decode after "reg" = .ok (some new) ∧
      RegistersLeft owns ranges old new := by
  have hmore {range : ChannelRange} {ranges : List ChannelRange} (record : List UInt32) :
      Foreign owns ranges record → Foreign owns (range :: ranges) record := by
    rintro ⟨other, hmem, hassigned⟩
    exact ⟨other, List.mem_cons_of_mem _ hmem, hassigned⟩
  induction h generalizing old with
  | nil => exact ⟨old, hold, .refl _ _, rfl⟩
  | @settle range ranges _ _ _ ih =>
    obtain ⟨mid, hmid, hfirst⟩ := @registers_settle owns range _ _ hold
    obtain ⟨new, hnew, hothers⟩ := ih hmid
    have hone (record : List UInt32) :
        Foreign owns [range] record → Foreign owns (range :: ranges) record := by
      rintro ⟨other, hmem, hassigned⟩
      obtain rfl := List.mem_singleton.1 hmem
      exact ⟨other, List.mem_cons_self, hassigned⟩
    exact ⟨new, hnew, (hfirst.records.mono hone).trans (hothers.records.mono hmore),
      hothers.rest.trans hfirst.rest⟩
  | skip _ ih =>
    obtain ⟨new, hnew, hothers⟩ := ih hold
    exact ⟨new, hnew, hothers.records.mono hmore, hothers.rest⟩

theorem malformed (h : Settled owns ranges before after)
    (hreg : ∀ old, readAs Cells.decode before "reg" ≠ .ok (some old)) : after = before := by
  induction h with
  | nil => rfl
  | @settle range ranges _ _ _ ih =>
    rw [settle_of_malformed hreg] at ih
    exact ih hreg
  | skip _ ih => exact ih hreg

theorem count {left : UInt32} (h : Settled owns ranges before after)
    (hleft : readAs Tree.singleCell after "dma-channels" = .ok (some left)) :
    ∃ channels, readAs Tree.singleCell before "dma-channels" = .ok (some channels) ∧
      left ≤ channels := by
  induction h with
  | nil => exact ⟨left, hleft, UInt32.le_refl left⟩
  | settle _ ih =>
    obtain ⟨mid, hmid, hle⟩ := ih hleft
    obtain ⟨channels, hchannels, hle'⟩ := count_settle hmid
    exact ⟨channels, hchannels, UInt32.le_trans hle hle'⟩
  | skip _ ih => exact ih hleft

/-- Once a controller has a single register range its number of channels stays, so every range has
been compared with the number at the end. -/
theorem mask {old : Option UInt32} (h : Settled owns ranges before after)
    (hold : readAs Tree.singleCell before "dma-channel-mask" = .ok old) :
    ∃ new, readAs Tree.singleCell after "dma-channel-mask" = .ok new ∧
      MaskLeft owns ranges after old new := by
  induction h generalizing old with
  | nil => exact ⟨old, hold, .refl _ _ _ old⟩
  | @settle range ranges before after hrest ih =>
    rcases @mask_settle owns range before old hold with
      hmid | ⟨registers, channels, hreg, hlength, hchannels, hmid⟩
    · obtain ⟨new, hnew, hleft⟩ := ih hmid
      exact ⟨new, hnew, hleft.cons range⟩
    · obtain ⟨new, hnew, hleft⟩ := ih hmid
      obtain ⟨hreg', hcount⟩ := @single_settle owns range before registers hreg hlength
      refine ⟨new, hnew, hleft.cons_maskedBy ?_⟩
      rw [hrest.single hreg' hlength, hcount, hchannels]
  | @skip range _ _ _ _ ih =>
    obtain ⟨new, hnew, hleft⟩ := ih hold
    exact ⟨new, hnew, hleft.cons range⟩

theorem otherMask (h : Settled owns ranges before after)
    (hmask : ∀ old, readAs Tree.singleCell before "dma-channel-mask" ≠ .ok old) :
    valueOf? after "dma-channel-mask" = valueOf? before "dma-channel-mask" := by
  induction h with
  | nil => rfl
  | @settle range ranges before after _ ih =>
    have hfirst := @otherMask_settle owns range before hmask
    rw [ih ?_, hfirst]
    rw [readAs_congr hfirst]
    exact hmask
  | skip _ ih => exact ih hmask

theorem trimmed (h : Settled owns ranges before after) : Trimmed owns ranges before after where
  unreached := by
    rintro rfl
    cases h
    rfl
  overlay := h.overlay
  registers _ := h.registers
  malformed := h.malformed
  count _ := h.count
  mask _ := h.mask
  otherMask := h.otherMask

end Settled

end Edma

end BootTree
