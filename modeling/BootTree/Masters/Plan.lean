import BootTree.PowerDomain.Demand

/-!
# BootTree.Masters.Plan

Which bindings of bus masters to stream ids the device tree asks for. The memory management unit for
devices may carry a list of all its masters; only if it has none, the masters' own properties count.

* `deviceBindings` — the bindings of all resources of one device.
* `listedBindings` — the bindings that a list of masters asks for.
* `ownBindings` — the bindings that the masters' own properties ask for.
* `bindings` — whichever of the two applies.
-/

namespace BootTree

namespace Masters

def logTarget : String := "imx8_fdt::smmu"

def unitCompatible : String := "arm,mmu-500"

/-- The text of a name that is known to be UTF-8. -/
def textOf (name : Bytes) : String := (Bytes.text? name).getD ""

/-- Turn a plan that asks for resources into one that asks to bind them. -/
def bindEach (name : String) (stream : StreamId) (plan : Plan Resource) : Plan Binding :=
  plan.flatMap fun
    | .note record => [.note record]
    | .fail e => [.fail e]
    | .ask resource =>
      Plan.note .debug logTarget
        (s!"configure node {name} sid " ++ hex stream.toNat ++ s!" resource {resource.text}") ++
      [.ask ⟨resource, stream⟩]

def bindListed (name : String) (stream : StreamId) (raw : Bytes) : Plan Binding :=
  let resources := Cells.whole raw
  let trailing := raw.length % 4
  (if trailing = 0 then []
    else Plan.note .warn logTarget s!"node {name} fsl,sc_rsrc_id has {trailing} trailing bytes") ++
  Plan.note .debug logTarget
    (s!"configure node {name} sid " ++ hex stream.toNat ++ s!" for {resources.length} resources") ++
  resources.map fun id => .ask ⟨⟨id⟩, stream⟩

/-- Bind all resources of a device: the ones it lists, or else those of its power domains. -/
def deviceBindings (tree : Tree) (device : NodeRef) (stream : StreamId) : Plan Binding :=
  match tree.nodeName device with
  | .error e => [.fail e]
  | .ok nameBytes =>
    let name := textOf nameBytes
    match tree.value device "fsl,sc_rsrc_id" with
    | .error e => [.fail e]
    | .ok (some raw) => bindListed name stream raw
    | .ok none =>
      match tree.cells device PowerDomain.listProperty with
      | .error (.badValue length) =>
        Plan.note .warn logTarget
          s!"ignoring power-domains of {name} with unexpected length {length}"
      | .error e => [.fail e]
      | .ok cells =>
        bindEach name stream <|
          PowerDomain.entryDemand logTarget name 0
            (tree.readSlots device PowerDomain.listProperty PowerDomain.argumentRule)
            (List.range (cells.getD []).length)

/-! ## Lists of masters -/

/-- A master and its stream id, as a list of masters names them. -/
structure Master where
  phandle : UInt32
  stream : StreamId
  deriving DecidableEq, Repr

/-- The pairs of cells at the front of a list of masters; an incomplete pair names nothing. -/
def readMasters : List UInt32 → List Master
  | phandle :: stream :: rest => ⟨phandle, stream⟩ :: readMasters rest
  | _ => []

def masters (tree : Tree) : Except TreeError (Option (List Master)) := do
  let some node ← tree.findCompatible none unitCompatible | return none
  return (← tree.value node "mmu-masters").map fun raw => readMasters (Cells.whole raw)

def masterBindings (tree : Tree) (master : Master) : Plan Binding :=
  match tree.findRaw master.phandle with
  | .error e => [.fail e]
  | .ok none =>
    Plan.note .error logTarget
      ("mmu-masters references missing device " ++ hex master.phandle.toNat)
  | .ok (some device) => deviceBindings tree device master.stream

def listedBindings (tree : Tree) (masters : List Master) : Plan Binding :=
  Plan.note .debug logTarget "found legacy mmu-masters property" ++
    masters.flatMap (masterBindings tree)

/-! ## Masters that name their own stream id -/

/-- The stream id in the value of a master's own property: the second of its three cells. -/
def streamOf? (raw : Bytes) : Option StreamId :=
  if raw.length = 12 then Bytes.word? (raw.drop 4) else none

def nodeBindings (tree : Tree) (node : NodeRef) : Plan Binding :=
  match tree.value node "iommus" with
  | .error e => [.fail e]
  | .ok none => []
  | .ok (some raw) =>
    match tree.nodeName node with
    | .error e => [.fail e]
    | .ok nameBytes =>
      let name := textOf nameBytes
      Plan.note .debug logTarget s!"node {name} iommus of {raw.length} bytes" ++
        match streamOf? raw with
        | some stream => deviceBindings tree node stream
        | none =>
          if raw.length = 4 then []
          else
            Plan.note .debug logTarget
              s!"node {name} ignore unexpected iommus of {raw.length} bytes"

def walkBindings (tree : Tree) (walk : Tree.Walk) : Plan Binding :=
  walk.nodes.flatMap (fun entry => nodeBindings tree entry.1) ++ walk.failure.toList.map .fail

def ownBindings (tree : Tree) : Plan Binding :=
  match tree.root with
  | .error e => [.fail e]
  | .ok root => walkBindings tree (tree.walkFrom root 0)

def bindings (tree : Tree) : Plan Binding :=
  match masters tree with
  | .error e => [.fail e]
  | .ok (some masters) => listedBindings tree masters
  | .ok none => ownBindings tree

end Masters

end BootTree
