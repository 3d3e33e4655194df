import BootTree.Log
import BootTree.Partition.Controller
import BootTree.KeyService.Ipc

/-!
# BootTree.Event

What a fixup does besides editing the tree: it writes to the log, asks who owns a resource, asks for
bindings, and exchanges messages with the secure world. All of that is recorded as one list of
events, in the order in which it happened.

* `Reported` — a value with the events on the way to it; a lawful monad whose `bind` appends.
* `Reported.log`, `Reported.owns` — the two events most fixups report.
* `Event.records`, `Event.queries`, `Event.bindings`, `Event.traffic` — the parts of a list of
  events that concern one of these matters.
-/

namespace BootTree

inductive Event where
  | logged (record : Log.Record)
  /-- The ownership of a resource was asked for. -/
  | queried (resource : Resource)
  /-- A binding was asked for, with this answer. -/
  | bound (binding : Binding) (answer : Except ControllerError Unit)
  | exchanged (traffic : KeyService.Traffic)

namespace Event

def records (events : List Event) : List Log.Record :=
  events.filterMap fun | logged r => some r | _ => none

def queries (events : List Event) : List Resource :=
  events.filterMap fun | queried r => some r | _ => none

/-- The bindings that were asked for, whatever the answer. -/
def requests (events : List Event) : List Binding :=
  events.filterMap fun | bound b _ => some b | _ => none

def bindings (events : List Event) : List Binding :=
  events.filterMap fun | bound b (.ok ()) => some b | _ => none

def traffic (events : List Event) : List KeyService.Traffic :=
  events.filterMap fun | exchanged t => some t | _ => none

end Event

/-- A value and the events on the way to it. -/
structure Reported (α : Type) where
  value : α
  events : List Event

namespace Reported

instance : Monad Reported where
  pure a := ⟨a, []⟩
  bind x f := ⟨(f x.value).value, x.events ++ (f x.value).events⟩

@[simp] theorem value_pure {α : Type} (a : α) : (pure a : Reported α).value = a := rfl

@[simp] theorem events_pure {α : Type} (a : α) : (pure a : Reported α).events = [] := rfl

@[simp] theorem value_bind {α β : Type} (x : Reported α) (f : α → Reported β) :
    (x >>= f).value = (f x.value).value := rfl

@[simp] theorem events_bind {α β : Type} (x : Reported α) (f : α → Reported β) :
    (x >>= f).events = x.events ++ (f x.value).events := rfl

instance : LawfulMonad Reported := LawfulMonad.mk' Reported
  (fun x => by cases x; simp [Functor.map])
  (fun _ _ => rfl)
  (fun x f g => by simp [bind, List.append_assoc])

def tell (events : List Event) : Reported Unit := ⟨(), events⟩

def log (level : Log.Level) (target message : String) : Reported Unit :=
  tell [.logged ⟨level, target, message⟩]

end Reported

end BootTree
