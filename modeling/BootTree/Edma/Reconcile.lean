import BootTree.Edma.ChannelMap
import BootTree.Edma.Mask
import BootTree.Edma.Removal
import BootTree.Fixup.Growth

/-!
# BootTree.Edma.Reconcile

Taking the channels of DMA controllers that belong to other partitions out of the device tree.
Controllers come in two shapes:

* If `reg` holds a single range, channels are switched off by bits of `dma-channel-mask`
  (`maskChannels`).
* Otherwise `reg` holds the controller's own range and one range per channel. A channel is taken out
  of `reg` and out of the four arrays that run parallel to it, and `dma-channels` is lowered
  (`dropChannels`).

`reconcile` goes through a channel map. Trouble with one controller is logged and does not keep the
others from being processed.

The new name lists of a controller need memory of their own, and that may be refused. Whether it is
there is an argument (`granted`) of everything that comes to this step; it is there unless said
otherwise.
-/

namespace BootTree

namespace Edma

open Blob

def logTarget : String := "imx8_fdt::edma"

structure Candidate where
  /-- The channel's bit in the mask, or its index in `reg`. -/
  index : Nat
  resource : Resource
  deriving DecidableEq, Repr

def unowned (owns : Ownership) (candidates : List Candidate) : List Candidate :=
  candidates.filter fun c => !owns c.resource

/-- What is reported while the candidates are gone through: a question for each of them, and a line
for each one that is not owned. -/
def inspection (owns : Ownership) (verb : String) (candidates : List Candidate) : List Event :=
  candidates.flatMap fun c =>
    .queried c.resource ::
      if owns c.resource then []
      else
        [.logged ⟨.info, logTarget,
          s!"{verb} eDMA channel {c.index} (resource {c.resource.text} not owned)"⟩]

/-! ## Controllers with a channel mask -/

/-- The channels of a range that the controller has and that are not switched off yet. -/
def maskCandidates (range : ChannelRange) (channels mask : UInt32) : List Candidate :=
  let stop := min (min channels.toNat range.channelCount.toNat) maskBits
  let start := range.startChannel.toNat
  (((List.range stop).drop start).filter fun channel => !isMasked mask channel).map fun channel =>
    ⟨channel, range.startResource.nth (UInt32.ofNat (channel - start))⟩

def update (node : NodeRef) (path property : String) (value : Bytes) : Fixup Unit := do
  match ← (setGrowing node property value).run with
  | .ok () => pure ()
  | .error e =>
    Fixup.log .error logTarget s!"could not update {property} of {path}: {e.messageWithCode}"

def maskChannels (owns : Ownership) (range : ChannelRange) (node : NodeRef) :
    Attempt TreeError Unit := do
  let some _ ← Attempt.ask (·.value node "interrupts") | return
  let channels := (← Attempt.ask (·.cell node "dma-channels")).getD 0
  if channels = 0 then return
  let oldMask := (← Attempt.ask (·.cell node "dma-channel-mask")).getD 0
  let candidates := maskCandidates range channels oldMask
  Fixup.tell (inspection owns "masking" candidates)
  let mask := (unowned owns candidates).foldl (fun mask c => withMasked mask c.index) oldMask
  if mask ≠ oldMask then
    update node range.nodePath "dma-channel-mask" (Bytes.word mask)

/-! ## Controllers with a register range per channel -/

/-- The properties of a controller that are compacted together. -/
structure ChannelArrays where
  registers : List UInt32
  interrupts : List UInt32
  channels : UInt32
  interruptNames : Bytes
  powerDomains : List UInt32
  powerDomainNames : Bytes
  deriving DecidableEq, Repr

namespace ChannelArrays

/-- The arrays without some entries of `reg`, its first one being the controller itself. The others
start with the first channel. -/
def compact (arrays : ChannelArrays) (removal : RemovalSet) : ChannelArrays :=
  let channelRemoval := removal.rebased 1
  { registers := compactRecords 2 arrays.registers removal
    interrupts := compactRecords 3 arrays.interrupts channelRemoval
    channels := UInt32.ofNat (arrays.channels.toNat - removal.size)
    interruptNames := compactStrings arrays.interruptNames channelRemoval
    powerDomains := compactRecords 2 arrays.powerDomains channelRemoval
    powerDomainNames := compactStrings arrays.powerDomainNames channelRemoval }

def properties (arrays : ChannelArrays) : List (String × Bytes) :=
  [ ("reg", Cells.encode arrays.registers),
    ("interrupts", Cells.encode arrays.interrupts),
    ("dma-channels", Bytes.word arrays.channels),
    ("interrupt-names", arrays.interruptNames),
    ("power-domains", Cells.encode arrays.powerDomains),
    ("power-domain-names", arrays.powerDomainNames) ]

end ChannelArrays

/-- The entries of `reg` that a range assigns a channel to. Entries in front of the range's first
channel are not looked at. -/
def registerCandidates (range : ChannelRange) (registers : List UInt32) : List Candidate :=
  ((splitRecords 2 registers).1.zipIdx.drop range.startChannel.toNat).filterMap fun
    | ([base, size], index) =>
      (range.channel? base size).map fun channel => ⟨index, range.startResource.nth channel⟩
    | _ => none

/-- The arrays of a controller, or nothing if it lacks one of them or has no channels. -/
def readArrays (tree : Tree) (node : NodeRef) (registers : List UInt32) :
    Except TreeError (Option ChannelArrays) := do
  let some interrupts ← tree.cells node "interrupts" | return none
  let channels := (← tree.cell node "dma-channels").getD 0
  if channels = 0 then return none
  let some interruptNames ← tree.value node "interrupt-names" | return none
  let some powerDomains ← tree.cells node "power-domains" | return none
  let some powerDomainNames ← tree.value node "power-domain-names" | return none
  return some { registers, interrupts, channels, interruptNames, powerDomains, powerDomainNames }

/-- Write the arrays of a controller. Each property is written on its own, so that one failure does
not keep the others from being written. -/
def writeArrays (node : NodeRef) (path : String) (arrays : ChannelArrays) : Fixup Unit :=
  arrays.properties.forM fun (property, value) => update node path property value

/-- Write the arrays of a controller, if there is memory for its name lists. Otherwise the controller
keeps all arrays that it has. -/
def replaceArrays (node : NodeRef) (path : String) (arrays : ChannelArrays) (granted : Bool) :
    Fixup Unit :=
  if granted then writeArrays node path arrays
  else
    Fixup.log .error logTarget
      s!"could not allocate the new name lists of {path}, leaving it unchanged"

def dropChannels (owns : Ownership) (range : ChannelRange) (node : NodeRef)
    (registers : List UInt32) (granted : Bool := true) : Attempt TreeError Unit := do
  let some arrays ← Attempt.ask (readArrays · node registers) | return
  Fixup.log .trace logTarget ("reg " ++ hexList arrays.registers)
  Fixup.log .trace logTarget ("interrupts " ++ hexList arrays.interrupts)
  Fixup.log .trace logTarget ("power-domains " ++ hexList arrays.powerDomains)
  let candidates := registerCandidates range registers
  Fixup.tell (inspection owns "removing" candidates)
  let lost := unowned owns candidates
  if lost ≠ [] then
    replaceArrays node range.nodePath
      (arrays.compact (RemovalSet.ofList (lost.map Candidate.index))) granted

/-! ## Channel maps -/

/-- Take the channels of one range that are not owned out of the tree. The controller is looked up
by its path, because earlier edits may have moved it. -/
def reconcileRange (owns : Ownership) (range : ChannelRange) (granted : Bool := true) :
    Fixup Unit := do
  let path := range.nodePath
  match ← Fixup.ask (·.resolve path) with
  | .error e => Fixup.log .warn logTarget s!"could not look up {path}: {e.messageWithCode}"
  | .ok none => pure ()
  | .ok (some node) =>
    Fixup.log .info logTarget (path ++ ", " ++ hex node.offset)
    match ← Fixup.ask (·.cells node "reg") with
    | .error e =>
      Fixup.log .warn logTarget s!"ignoring {path} with malformed reg: {e.messageWithCode}"
    | .ok none => pure ()
    | .ok (some registers) =>
      let outcome ←
        if registers.length = 2 then (maskChannels owns range node).run
        else (dropChannels owns range node registers granted).run
      match outcome with
      | .ok () => pure ()
      | .error e =>
        Fixup.log .warn logTarget
          s!"ignoring malformed eDMA controller {path}: {e.messageWithCode}"

/-- Take all channels of a map that are not owned out of the tree. Memory is there or not for each
range of the map on its own. -/
def reconcile (owns : Ownership) (map : List ChannelRange)
    (granted : Nat → Bool := fun _ => true) : Fixup Unit :=
  map.zipIdx.forM fun (range, place) => reconcileRange owns range (granted place)

theorem reconcile_nil (owns : Ownership) (granted : Nat → Bool) :
    reconcile owns [] granted = pure () := rfl

theorem reconcile_cons (owns : Ownership) (range : ChannelRange) (rest : List ChannelRange)
    (granted : Nat → Bool) :
    reconcile owns (range :: rest) granted = (do
      reconcileRange owns range (granted 0)
      reconcile owns rest fun place => granted (place + 1)) := by
  rw [reconcile, reconcile, List.zipIdx_cons, List.zipIdx_succ, List.forM_eq_forM, List.forM_cons,
    List.forM_map]

end Edma

end BootTree
