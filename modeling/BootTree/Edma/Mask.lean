/-!
# BootTree.Edma.Mask

Channel masks: words whose set bits switch channels of a DMA controller off.

* `isMasked_withMasked` — switching a channel off does that and nothing else.
-/

namespace BootTree

namespace Edma

def maskBits : Nat := 32

def isMasked (mask : UInt32) (channel : Nat) : Bool := mask.toNat.testBit channel

/-- The mask that also switches `channel` off. -/
def withMasked (mask : UInt32) (channel : Nat) : UInt32 := mask ||| UInt32.ofNat (1 <<< channel)

theorem isMasked_withMasked {mask : UInt32} {channel other : Nat} (h : channel < maskBits) :
    isMasked (withMasked mask channel) other = (isMasked mask other || decide (channel = other)) := by
  have hpow : 2 ^ channel < 2 ^ 32 := Nat.pow_lt_pow_right (by decide) h
  rw [isMasked, withMasked, Nat.one_shiftLeft, UInt32.toNat_or, UInt32.toNat_ofNat', Nat.mod_eq_of_lt hpow,
    Nat.testBit_or, Nat.testBit_two_pow]
  rfl

theorem isMasked_of_le {mask : UInt32} {channel : Nat} (h : maskBits ≤ channel) :
    isMasked mask channel = false :=
  Nat.testBit_lt_two_pow
    (Nat.lt_of_lt_of_le mask.toNat_lt (Nat.pow_le_pow_right (by decide) h))

end Edma

end BootTree
