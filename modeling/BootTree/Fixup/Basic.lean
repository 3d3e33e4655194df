import BootTree.Event
import BootTree.Tree.Edit

/-!
# BootTree.Fixup.Basic

Fixups bring a device tree in line with the partition that is about to boot. A fixup edits the tree
and reports events; one that can fail leaves its tree and its events behind also when it does.

* `Fixup` — a fixup that always runs to its end.
* `Attempt` — a fixup that may fail.
* `Fixup.edit`, `Fixup.ask`, `Fixup.tell`, `Fixup.log` — the steps fixups are made of.
-/

namespace BootTree

/-- Edits the tree and reports events. -/
abbrev Fixup := StateT Tree Reported

abbrev Attempt (ε : Type) := ExceptT ε Fixup

namespace Fixup

def edit {α : Type} (e : Edit α) : Fixup (Except TreeError α) := fun tree =>
  match e tree with
  | .ok a tree => pure (.ok a, tree)
  | .error err tree => pure (.error err, tree)

def ask {α : Type} (query : Tree → α) : Fixup α := fun tree => pure (query tree, tree)

def tell (events : List Event) : Fixup Unit := liftM (Reported.tell events)

def log (level : Log.Level) (target message : String) : Fixup Unit :=
  liftM (Reported.log level target message)

end Fixup

namespace Attempt

/-- An edit as a step of an attempt, which fails if the edit does. -/
def edit {α : Type} (e : Edit α) : Attempt TreeError α := ExceptT.mk (Fixup.edit e)

/-- A question to the tree that may have no answer. -/
def ask {α : Type} (query : Tree → Except TreeError α) : Attempt TreeError α :=
  ExceptT.mk (Fixup.ask query)

/-- The same attempt, with its errors seen as part of a larger one. -/
def mapError {ε ε' α : Type} (f : ε → ε') (x : Attempt ε α) : Attempt ε' α :=
  ExceptT.mk (do return (← x.run).mapError f)

end Attempt

end BootTree
