import BootTree.Edma.Mask
import BootTree.Plan
import BootTree.Tree.Phandle

/-!
# BootTree.PowerDomain.Demand

Which resources a device depends on through its power domains, under the two ways device trees
describe them:

* Legacy: every domain is a node of its own, with its resource in `reg` and a reference to the next
  domain, up to the top of the domain tree. A device needs the whole chain (`chainDemand`).
* Generic: one provider serves all domains, and a device lists it together with resource numbers
  (`listDemand`).

`firstUnowned` carries such a plan out: it asks for the owner of one resource after the other until
one is not owned.
-/

namespace BootTree

namespace PowerDomain

def logTarget : String := "imx8_fdt::power_domain"

def legacyCompatible : String := "nxp,imx8-pd"

def genericCompatible : String := "fsl,scu-pd"

def listProperty : String := "power-domains"

/-- Domain trees are a few levels deep; a longer chain comes from references in a circle. -/
def maxChain : Nat := 16

/-! ## Chains of domains -/

/-- What a node's reference to its power domain leads to. -/
inductive Link where
  /-- The chain ends here, with a line for the log if something is odd about that. -/
  | ends (record : Option Log.Record)
  | broken (error : TreeError)
  | domain (node : NodeRef) (resource : Resource)

/-- Follow the reference of one node to its power domain and read the domain's resource. -/
def link (tree : Tree) (node : NodeRef) : Link :=
  let ended (level : Log.Level) (message : String) := Link.ends (some ⟨level, logTarget, message⟩)
  match tree.value node listProperty with
  | .error e => .broken e
  | .ok none => .ends none
  | .ok (some raw) =>
    if raw.length ≠ 4 then
      ended .warn s!"ignoring {tree.nameText node} power-domains of unexpected length {raw.length}"
    else
      let target := (Bytes.word? raw).getD 0
      match tree.findRaw target with
      | .error e => .broken e
      | .ok none =>
        ended .warn
          ("power domain " ++ hex target.toNat ++ s!" of {tree.nameText node} does not exist")
      | .ok (some domain) =>
        match tree.cell domain "reg" with
        | .error e =>
          ended .warn
            s!"ignoring power domain {tree.nameText domain} with malformed reg: {e.message}"
        | .ok reg =>
          let resource : Resource := ⟨reg.getD 0⟩
          if resource = Resource.unassigned then
            ended .debug s!"power domain {tree.nameText domain} has no resource"
          else .domain domain resource

/-- The resources on the chain of domains that starts at `current`, as far as `links` references
reach. The chain also ends behind the top of the domain tree. -/
def chainFrom (tree : Tree) (device : NodeRef) : (links : Nat) → (current : NodeRef) → Plan Resource
  | 0, _ =>
    Plan.note .warn logTarget
      s!"power domain chain of {tree.nameText device} is too long, ignoring it"
  | links + 1, current =>
    match link tree current with
    | .ends record => record.toList.map .note
    | .broken e => [.fail e]
    | .domain domain resource =>
      Plan.note .trace logTarget
        s!"power domain {tree.nameText domain}, resource {resource.text}" ++
      .ask resource ::
        if tree.isCompatible domain legacyCompatible then []
        else chainFrom tree device links domain

def chainDemand (tree : Tree) (device : NodeRef) : Plan Resource :=
  chainFrom tree device maxChain device

/-! ## Lists of domains -/

def argumentRule : ArgumentCount := .declaredBy "#power-domain-cells"

/-- The resources that the entries at some indices of a list name, entries of switched-off channels
left out. The list ends at the first entry that does not exist. -/
def entryDemand (target name : String) (mask : UInt32) (list : Except TreeError SlotList) :
    (indices : List Nat) → Plan Resource
  | [] => []
  | index :: rest =>
    if Edma.isMasked mask index then entryDemand target name mask list rest
    else
      match list.bind (·.entry index) with
      | .error .notFound => []
      | .error e =>
        Plan.note .warn target s!"parse power-domains of {name} wrong: {e.messageWithCode}" ++
          entryDemand target name mask list rest
      | .ok (_, []) =>
        Plan.note .warn target s!"power-domains entry {index} of {name} has no resource id" ++
          entryDemand target name mask list rest
      | .ok (_, resource :: _) => .ask ⟨resource⟩ :: entryDemand target name mask list rest

/-- The number of cells of a node's list; every entry has at least one. -/
def listLength (tree : Tree) (device : NodeRef) : Nat :=
  match tree.cells device listProperty with
  | .ok (some cells) => cells.length
  | _ => 0

/-- What a device needs under the generic description. Entries whose bit is set in the channel mask
belong to channels that are switched off already. -/
def listDemand (tree : Tree) (device : NodeRef) : Plan Resource :=
  let name := tree.nameText device
  let entries (mask : UInt32) :=
    entryDemand logTarget name mask (tree.readSlots device listProperty argumentRule)
      (List.range (listLength tree device))
  match tree.cell device "dma-channel-mask" with
  | .ok mask => entries (mask.getD 0)
  | .error e =>
    Plan.note .warn logTarget s!"ignoring malformed dma-channel-mask of {name}: {e.message}" ++
      entries 0

/-! ## Asking -/

def firstUnowned (owns : Ownership) : Plan Resource → Reported (Except TreeError (Option Resource))
  | [] => pure (.ok none)
  | .note record :: rest => do
    Reported.tell [.logged record]
    firstUnowned owns rest
  | .fail e :: _ => pure (.error e)
  | .ask resource :: rest => do
    Reported.tell [.queried resource]
    if owns resource then firstUnowned owns rest else return .ok (some resource)

end PowerDomain

end BootTree
