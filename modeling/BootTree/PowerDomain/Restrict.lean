import BootTree.Fixup.Growth
import BootTree.PowerDomain.Demand

/-!
# BootTree.PowerDomain.Restrict

Disabling every device that depends on a resource of another partition.

* `Policy`, `detect` — how the tree describes power domains, and finding that out.
* `visitLegacy`, `visitGeneric` — what is done at one node, and where to go from there.
* `apply` — all nodes of the tree, under one policy.
* `restrict` — the whole fixup: find the policy, apply it, and log if the tree cuts it short.

Disabling a node only moves what stands behind it, so the walk goes on from the node itself.
-/

namespace BootTree

namespace PowerDomain

inductive Policy where
  | legacy
  | generic
  deriving DecidableEq, Repr

def Policy.name : Policy → String
  | legacy => "Legacy"
  | generic => "Generic"

/-- Generic if the tree has a provider of the generic description, legacy otherwise. -/
def detect (tree : Tree) : Reported Policy :=
  match tree.findCompatible none genericCompatible with
  | .ok (some _) => pure .generic
  | .ok none => pure .legacy
  | .error e => do
    Reported.log .warn logTarget
      s!"could not search for {genericCompatible}: {e.messageWithCode}, assuming legacy power domains"
    return .legacy

def disableUnowned (node : NodeRef) (resource : Resource) : Fixup Unit := do
  let outcome ← (disable node).run
  let name := (← get).nameText node
  match outcome with
  | .ok () =>
    Fixup.log .info logTarget s!"disabled {name}, resource {resource.text} not owned"
  | .error e => Fixup.log .error logTarget s!"unable to disable {name}: {e.messageWithCode}"

def check (owns : Ownership) (demand : Tree → NodeRef → Plan Resource) (node : NodeRef) :
    Attempt TreeError Unit := do
  let tree ← get
  let plan := demand tree node
  let found ← ExceptT.mk (liftM (firstUnowned owns plan) : Fixup (Except TreeError (Option Resource)))
  match found with
  | none => return
  | some resource => disableUnowned node resource

def logVisit (node : NodeRef) (depth : Int) : Fixup Unit := do
  let name := (← get).nameText node
  Fixup.log .trace logTarget s!"node {name}, depth {depth}"

/-- A node of the tree under the legacy policy. Domain trees are left alone: the walk goes on behind
them, at the next node directly below the root. -/
def visitLegacy (owns : Ownership) (node : NodeRef) (depth : Int) :
    Attempt TreeError (Option (NodeRef × Int)) := do
  logVisit node depth
  let tree ← get
  if !tree.isEnabled node then
    let name := tree.nameText node
    Fixup.log .trace logTarget s!"ignoring disabled node {name}"
    Attempt.ask (·.next node depth)
  else if tree.isCompatible node legacyCompatible then
    Attempt.ask fun tree => (tree.walkFrom node depth).find? fun _ d => .ok (decide (d ≤ 1))
  else
    check owns chainDemand node
    Attempt.ask (·.next node depth)

def visitGeneric (owns : Ownership) (node : NodeRef) (depth : Int) :
    Attempt TreeError (Option (NodeRef × Int)) := do
  logVisit node depth
  let list ← Attempt.ask (·.value node listProperty)
  if list.isSome && (← get).isEnabled node then check owns listDemand node
  Attempt.ask (·.next node depth)

/-- Visit nodes from the cursor on. Every visit leads further towards the end of the structure
block, so there are fewer visits than the block has bytes. -/
def walk (visit : NodeRef → Int → Attempt TreeError (Option (NodeRef × Int))) :
    (visits : Nat) → (cursor : Option (NodeRef × Int)) → Attempt TreeError Unit
  | _, none => return
  | 0, some _ => return
  | visits + 1, some (node, depth) => do walk visit visits (← visit node depth)

def Policy.visit : Policy → Ownership → NodeRef → Int → Attempt TreeError (Option (NodeRef × Int))
  | legacy => visitLegacy
  | generic => visitGeneric

/-- Disable every node below the root that depends on a resource that is not owned. -/
def apply (policy : Policy) (owns : Ownership) : Attempt TreeError Unit := do
  let root ← Attempt.ask Tree.root
  let first ← Attempt.ask (·.next root 0)
  walk (policy.visit owns) (← get).structBlock.length first

def restrict (owns : Ownership) : Fixup Unit := do
  let policy ← (liftM (detect (← get)) : Fixup Policy)
  Fixup.log .debug logTarget s!"checking resource ownership using {policy.name} power domains"
  match ← (apply policy owns).run with
  | .ok () => pure ()
  | .error e =>
    Fixup.log .error logTarget
      s!"resource check aborted, device tree is malformed: {e.messageWithCode}"

end PowerDomain

end BootTree
