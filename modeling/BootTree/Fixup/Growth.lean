import BootTree.Fixup.Basic

/-!
# BootTree.Fixup.Growth

Edits that may enlarge the tree. Edits never grow the blob on their own; here one that runs out of
space is run a second time after growing the blob once.

* `withGrowth` — run an edit, with one more try after growing.
* `setGrowing`, `childOrAdd`, `disable` — the edits that fixups make this way.
-/

namespace BootTree

def growIncrement : Nat := 512

/-- Run an edit. If it lacks space, grow the blob and run it exactly once more. -/
def withGrowth {α : Type} (e : Edit α) : Attempt TreeError α := ExceptT.mk do
  match ← Fixup.edit e with
  | .error (.noSpace needed) =>
    Fixup.log .debug "imx8_fdt::property"
      s!"device tree needs {needed} more bytes, growing it by {growIncrement}"
    match ← Fixup.edit (Tree.grow growIncrement) with
    | .error err => return .error err
    | .ok () => Fixup.edit e
  | outcome => return outcome

def setGrowing (node : NodeRef) (name value : Bytes) : Attempt TreeError Unit :=
  withGrowth (Tree.setValue node name value)

/-- The child of `parent` that `name` means, added if there is none. -/
def childOrAdd (parent : NodeRef) (name : Bytes) : Attempt TreeError NodeRef := do
  match ← Attempt.ask (·.child? parent name) with
  | some node => return node
  | none => withGrowth (Tree.addChild parent name)

def disabledStatus : Bytes := Bytes.ofText "disabled" ++ [0]

def disable (node : NodeRef) : Attempt TreeError Unit := setGrowing node "status" disabledStatus

end BootTree
