import BootTree.Bytes

/-!
# BootTree.KeyService.Ipc

Messages to a service in the secure world, seen from the client.

* `IpcError` — the transport's errors with their status words; `ofCode` reads back what `code` gives
  (`ofCode_code`), and every negative word is an error (`ofCode_eq_none_iff`).
* `Traffic` — what a client can do on the transport.
* `Transport` — a transport, given by its answers, which may depend on all earlier traffic.
* `Reply` — a received message: its length, and what was stored in the buffers offered for it.
-/

namespace BootTree

namespace KeyService

inductive IpcError where
  | generic | notSupported | noMemory | invalidArgs | secureOs | messageTooBig | noMessage
  | channelClosed | sendBlocked
  deriving DecidableEq, Repr

namespace IpcError

def message : IpcError → String
  | generic => "Generic IPC failure"
  | notSupported => "The operation is not supported"
  | noMemory => "Out of memory"
  | invalidArgs => "Invalid arguments"
  | secureOs => "The secure OS reported an error"
  | messageTooBig => "The message is too big"
  | noMessage => "No message is available"
  | channelClosed => "The channel was closed by the peer"
  | sendBlocked => "Sending is blocked"

def code : IpcError → Int
  | generic => -1
  | notSupported => -2
  | noMemory => -3
  | invalidArgs => -4
  | secureOs => -5
  | messageTooBig => -6
  | noMessage => -7
  | channelClosed => -8
  | sendBlocked => -9

/-- The error that a status word of the transport stands for. Negative words are errors, unknown ones
a generic failure; all others mean success. -/
def ofCode (status : Int32) : Option IpcError :=
  if 0 ≤ status.toInt then none
  else
    match status.toInt with
    | -2 => some notSupported
    | -3 => some noMemory
    | -4 => some invalidArgs
    | -5 => some secureOs
    | -6 => some messageTooBig
    | -7 => some noMessage
    | -8 => some channelClosed
    | -9 => some sendBlocked
    | _ => some generic

@[simp] theorem ofCode_code (e : IpcError) : ofCode (Int32.ofInt e.code) = some e := by
  cases e <;> rfl

theorem ofCode_eq_none_iff {status : Int32} : ofCode status = none ↔ 0 ≤ status.toInt := by
  unfold ofCode
  split
  · simp_all
  · split <;> simp_all

end IpcError

/-- Something a client did on the transport. -/
inductive Traffic where
  /-- A channel to the service of this name was asked for. -/
  | connected (service : String)
  | sent (message : Bytes)
  /-- A message was asked for, with buffers of these lengths. -/
  | received (capacities : List Nat)
  | closed
  deriving DecidableEq, Repr

/-- A received message: how long it is as a whole, and the bytes that were stored at the front of
the buffers, taken one behind the other. -/
structure Reply where
  length : Nat
  stored : Bytes
  deriving DecidableEq, Repr

/-- The buffers after a reply was stored in them, as one stretch of bytes. -/
def Reply.fill (reply : Reply) (buffers : Bytes) : Bytes :=
  (reply.stored ++ buffers.drop reply.stored.length).take buffers.length

@[simp] theorem Reply.length_fill (reply : Reply) (buffers : Bytes) :
    (reply.fill buffers).length = buffers.length := by
  simp [fill]; omega

structure Transport where
  connect : List Traffic → (service : String) → Except IpcError Unit
  send : List Traffic → (message : Bytes) → Except IpcError Unit
  receive : List Traffic → (capacities : List Nat) → Except IpcError Reply

end KeyService

end BootTree
