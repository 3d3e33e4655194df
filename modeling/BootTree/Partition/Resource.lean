/-!
# BootTree.Partition.Resource

The hardware resources that the system controller hands out to partitions. A resource is a number;
the channels of a DMA controller and the like have consecutive ones.
-/

namespace BootTree

structure Resource where
  id : UInt32
  deriving DecidableEq, Repr

/-- By which the memory management unit for devices tells bus masters apart. -/
abbrev StreamId := UInt32

namespace Resource

def nth (r : Resource) (n : UInt32) : Resource := ⟨r.id + n⟩

def text (r : Resource) : String := toString r.id

/-- What power domains without a resource of their own name. -/
def unassigned : Resource := ⟨0xfff0⟩

/-! ## First channels of the DMA channel ranges -/

def dma0Channel0 : Resource := ⟨188⟩
def dma1Channel0 : Resource := ⟨234⟩
def dma2Channel0 : Resource := ⟨289⟩
/-- The channels of the third controller are not numbered in one piece; this is their second one. -/
def dma2Channel5 : Resource := ⟨323⟩
def dma3Channel0 : Resource := ⟨355⟩

def dmaRangeStarts : List Resource :=
  [dma0Channel0, dma1Channel0, dma2Channel0, dma2Channel5, dma3Channel0]

end Resource

end BootTree
