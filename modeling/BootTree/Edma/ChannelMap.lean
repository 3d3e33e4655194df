import BootTree.Partition.Resource

/-!
# BootTree.Edma.ChannelMap

Which resource guards which channel of the enhanced DMA controllers. The channels of a controller
have register ranges of one size that follow each other, and resources with consecutive numbers; a
controller whose resources are not numbered in one piece has several ranges.

* `ChannelRange.channel?` — the channel that a register range belongs to.
* `Soc.channelMap` — the channel ranges of a chip.
-/

namespace BootTree

namespace Edma

structure ChannelRange where
  startResource : Resource
  startRegister : UInt32
  channelCount : UInt32
  /-- The controller's number for the first channel of the range. -/
  startChannel : UInt32
  nodePath : String
  deriving DecidableEq, Repr

/-- The channel of the range that the registers at `base` belong to. Registers outside of the range
belong to none, and those of the controller itself are outside. -/
def ChannelRange.channel? (range : ChannelRange) (base size : UInt32) : Option UInt32 :=
  if size = 0 ∨ base < range.startRegister then none
  else
    let channel := (base - range.startRegister) / size
    if channel < range.channelCount then some channel else none

end Edma

/-- The chips whose device trees have such controllers. -/
inductive Soc where
  | imx8qm
  | imx8qxp
  deriving DecidableEq, Repr

namespace Soc

open Resource

/-- The channel ranges of a chip. The two chips have their DMA subsystems at swapped places. -/
def channelMap : Soc → List Edma.ChannelRange
  | imx8qm =>
    [ ⟨dma0Channel0, 0x5a200000, 32, 0, "/bus@5a000000/dma-controller@5a1f0000"⟩,
      ⟨dma1Channel0, 0x5aa00000, 32, 0, "/bus@5a000000/dma-controller@5a9f0000"⟩,
      ⟨dma2Channel0, 0x59200000, 5, 0, "/bus@59000000/dma-controller@591f0000"⟩,
      ⟨dma2Channel5, 0x59250000, 27, 5, "/bus@59000000/dma-controller@591f0000"⟩,
      ⟨dma3Channel0, 0x59a00000, 32, 0, "/bus@59000000/dma-controller@599f0000"⟩ ]
  | imx8qxp =>
    [ ⟨dma0Channel0, 0x59200000, 32, 0, "/bus@59000000/dma-controller@591f0000"⟩,
      ⟨dma1Channel0, 0x59a00000, 32, 0, "/bus@59000000/dma-controller@599f0000"⟩,
      ⟨dma2Channel0, 0x5a200000, 5, 0, "/bus@5a000000/dma-controller@5a1f0000"⟩,
      ⟨dma2Channel5, 0x5a250000, 27, 5, "/bus@5a000000/dma-controller@5a1f0000"⟩,
      ⟨dma3Channel0, 0x5aa00000, 32, 0, "/bus@5a000000/dma-controller@5a9f0000"⟩ ]

end Soc

end BootTree
