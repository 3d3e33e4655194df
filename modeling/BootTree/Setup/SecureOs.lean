import BootTree.Fixup.Growth

/-!
# BootTree.Setup.SecureOs

Telling the operating system about the secure one beside it: a node by which it finds its driver,
and, if wanted, a reservation of the memory the secure system runs in.

* `SecureOs.describe` — add both. Doing it again reuses the node and reserves nothing twice.
-/

namespace BootTree

structure SecureOs where
  base : UInt64
  size : UInt64
  /-- Whether its memory is added to the memory reservations. -/
  reserveMemory : Bool
  deriving DecidableEq, Repr

namespace SecureOs

def logTarget : String := "imx8_fdt::optee"

def reservation (os : SecureOs) : Blob.Reservation := ⟨os.base, os.size⟩

/-- Reserve the memory unless a reservation of exactly this memory is there. -/
def reserveOnce (os : SecureOs) : Attempt TreeError Unit := do
  unless (← get).reserved.contains os.reservation do withGrowth (Tree.reserve os.reservation)

def describe (os : SecureOs) : Attempt TreeError Unit := do
  Attempt.edit (Tree.grow growIncrement)
  let root ← Attempt.ask Tree.root
  let firmware ← childOrAdd root "firmware"
  let node ← childOrAdd firmware "optee"
  withGrowth (Tree.setText node "compatible" "linaro,optee-tz")
  withGrowth (Tree.setText node "method" "smc")
  if os.reserveMemory then reserveOnce os
  Fixup.log .info logTarget
    ("added OP-TEE node for " ++ hex os.base.toNat ++ "+" ++ hex os.size.toNat)

end SecureOs

end BootTree
