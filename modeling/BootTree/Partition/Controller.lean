import BootTree.Partition.Resource

/-!
# BootTree.Partition.Controller

The system controller as the fixups see it: who owns a resource, and binding a resource as a bus
master to a stream id.

* `ControllerError.ofCode` — the outcome that a status number of the controller stands for.
* `Controller` — a controller, given by its answers. Answers may depend on the bindings that were
  asked for earlier, and on nothing else.
-/

namespace BootTree

inductive ControllerError where
  | version | config | parameter | noAccess | locked | unavailable | notFound | noPower | ipc | busy
  | fail
  deriving DecidableEq, Repr

namespace ControllerError

def message : ControllerError → String
  | version => "The SCU does not support the requested API version"
  | config => "The SCU configuration does not allow the request"
  | parameter => "A parameter of the request was invalid"
  | noAccess => "The partition has no access to the resource"
  | locked => "The resource is locked"
  | unavailable => "The resource is unavailable"
  | notFound => "The requested item was not found"
  | noPower => "The resource is not powered"
  | ipc => "The communication with the SCU failed"
  | busy => "The resource is busy"
  | fail => "The SCU reported a general failure"

def name : ControllerError → String
  | version => "Version"
  | config => "Config"
  | parameter => "Parameter"
  | noAccess => "NoAccess"
  | locked => "Locked"
  | unavailable => "Unavailable"
  | notFound => "NotFound"
  | noPower => "NoPower"
  | ipc => "Ipc"
  | busy => "Busy"
  | fail => "Fail"

/-- What a status number means: zero is success and every unknown number a general failure. -/
def ofCode (code : UInt32) : Except ControllerError Unit :=
  match code.toNat with
  | 0 => .ok ()
  | 1 => .error version
  | 2 => .error config
  | 3 => .error parameter
  | 4 => .error noAccess
  | 5 => .error locked
  | 6 => .error unavailable
  | 7 => .error notFound
  | 8 => .error noPower
  | 9 => .error ipc
  | 10 => .error busy
  | _ => .error fail

end ControllerError

/-- A resource that is to be bound to a stream id. -/
structure Binding where
  resource : Resource
  stream : StreamId
  deriving DecidableEq, Repr

/-- Which resources the running partition may use. -/
abbrev Ownership := Resource → Bool

structure Controller where
  owns : List Binding → Ownership
  bind : List Binding → Binding → Except ControllerError Unit

end BootTree
