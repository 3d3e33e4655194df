import BootTree.Edma.Reconcile
import BootTree.Masters.Bind
import BootTree.PowerDomain.Restrict
import BootTree.Setup.Error
import BootTree.Setup.SecureOs
import BootTree.Setup.Seed

/-!
# BootTree.Setup.Run

The whole setup of the device tree of a partition, in its fixed order.

* `Steps`, `Config` — which optional steps are run, and with what.
* `Platform` — the services of the firmware, by their answers.
* `setup` — run the steps. Only a failure to bind bus masters or to describe the secure operating
  system ends it; everything else is logged and skipped.
-/

namespace BootTree

namespace Setup

open Blob

def logTarget : String := "imx8_fdt::system_setup"

structure Steps where
  reserveAuxiliary : Bool
  /-- Disable devices whose power domains belong to other partitions. -/
  checkResources : Bool
  /-- Pass a random seed to the operating system. -/
  seed : Bool
  deriving DecidableEq, Repr

namespace Steps

def standard : Steps := ⟨true, true, false⟩

/-- The bits that stand for the steps where they are stored as a number. -/
def auxiliaryBit : Nat := 1

def resourcesBit : Nat := 2

def seedBit : Nat := 4

def bits (steps : Steps) : Nat :=
  (if steps.reserveAuxiliary then auxiliaryBit else 0) +
    (if steps.checkResources then resourcesBit else 0) + (if steps.seed then seedBit else 0)

end Steps

structure Config where
  soc : Soc
  steps : Steps
  auxiliary : Option Reservation
  secureOs : Option SecureOs
  deriving DecidableEq, Repr

def Config.standard (soc : Soc) : Config := ⟨soc, .standard, none, none⟩

/-- The services of the firmware that the setup talks to. -/
structure Platform where
  controller : Controller
  entropy : Seed.Entropy

/-- Reserve the memory of the auxiliary core; a failure is only logged. -/
def reserveAuxiliary (memory : Reservation) : Fixup Unit := do
  match ← (withGrowth (Tree.reserve memory)).run with
  | .ok () => pure ()
  | .error e =>
    Fixup.log .error logTarget s!"failed to reserve memory for bootaux: {e.messageWithCode}"

def passSeed (entropy : Seed.Entropy) : Fixup Unit := do
  match ← (Seed.storeFresh entropy).run with
  | .ok () => pure ()
  | .error e =>
    Fixup.log .error logTarget s!"unable to set property kaslr-seed: {e.message}"

def bindMasters (controller : Controller) : Attempt SetupError Unit := do
  let tree ← get
  ExceptT.mk (liftM (Masters.bindMasters controller tree) : Fixup (Except SetupError Unit))

/-- Bring the device tree in line with the partition that is about to boot. Memory for the name lists
of DMA controllers is there unless said otherwise. -/
def setup (config : Config) (platform : Platform) (granted : Nat → Bool := fun _ => true) :
    Attempt SetupError Unit := do
  let owns := platform.controller.owns []
  if config.steps.reserveAuxiliary then
    if let some memory := config.auxiliary then reserveAuxiliary memory
  if config.steps.checkResources then PowerDomain.restrict owns
  Edma.reconcile owns config.soc.channelMap granted
  if config.soc = .imx8qm then bindMasters platform.controller
  if config.steps.seed then passSeed platform.entropy
  if let some os := config.secureOs then Attempt.mapError .secureOs os.describe

end Setup

end BootTree
