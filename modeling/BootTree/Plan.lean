import BootTree.Event
import BootTree.Tree.Error

/-!
# BootTree.Plan

Plans: what a fixup is going to ask the system controller, as far as the tree alone decides it. A
plan is computed from the tree before anything is asked; it is carried out step by step until an
answer or a failure ends it.

* `Step` — a line for the log, something to ask, or the error that ends the plan.
* `Plan.requests` — what a plan asks if nothing ends it early.
-/

namespace BootTree

/-- A step of a plan that asks for values of type `α`. -/
inductive Step (α : Type) where
  | note (record : Log.Record)
  | ask (request : α)
  | fail (error : TreeError)

abbrev Plan (α : Type) := List (Step α)

namespace Plan

def note {α : Type} (level : Log.Level) (target message : String) : Plan α :=
  [.note ⟨level, target, message⟩]

def requests {α : Type} : Plan α → List α
  | [] => []
  | .note _ :: rest => requests rest
  | .ask request :: rest => request :: requests rest
  | .fail _ :: _ => []

def failure? {α : Type} : Plan α → Option TreeError
  | [] => none
  | .note _ :: rest => failure? rest
  | .ask _ :: rest => failure? rest
  | .fail e :: _ => some e

end Plan

end BootTree
