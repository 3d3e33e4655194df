import BootTree.Fixup.Growth
import BootTree.KeyService.Message

/-!
# BootTree.KeyService.Identity

Fetching the key service's identity and putting it into the device tree, where the operating system
finds it.

* `KeyError` — what can go wrong, with the status numbers for the boot flow.
* `Session` — a connection to the service, with everything that was done on it.
* `Session.connect`, `Session.fetch`, `Session.close` — using one.
* `storeKey` — put the fetched key into the tree.
-/

namespace BootTree

namespace KeyService

def logTarget : String := "secretkeeper::session"

/-- The largest key that is accepted, and how much the tree grows to hold it. -/
def keyCapacity : Nat := 128

def keyNodePath : String := "/avf/reference/avf"

inductive KeyError where
  | ipc (cause : IpcError)
  | shortResponse (length : Nat)
  | unexpectedResponse (command : UInt32)
  | service (status : UInt32)
  | payloadTooLarge (length : Nat)
  | tree (cause : TreeError)
  | missingNode
  deriving DecidableEq, Repr

namespace KeyError

def message : KeyError → String
  | ipc cause => "IPC with Secretkeeper failed: " ++ cause.message
  | shortResponse length => s!"The response of {length} bytes is shorter than its header"
  | unexpectedResponse command => "Unknown response command " ++ hex command.toNat
  | service status => s!"Secretkeeper reported error {status}"
  | payloadTooLarge length => s!"The {length} byte payload does not fit into the buffer"
  | tree cause => "Could not store the key in the device tree: " ++ cause.message
  | missingNode => s!"The device tree has no {keyNodePath} node"

def code : KeyError → Int
  | ipc cause => cause.code
  | tree cause => cause.code
  | missingNode => TreeError.notFound.code
  | shortResponse _ | unexpectedResponse _ | service _ | payloadTooLarge _ => IpcError.generic.code

end KeyError

structure Session where
  transport : Transport
  past : List Traffic

/-- A fetched identity: the length of the payload, and the buffer that starts with it. -/
structure Identity where
  length : Nat
  buffer : Bytes
  deriving DecidableEq, Repr

def Identity.payload (identity : Identity) : Bytes := identity.buffer.take identity.length

namespace Session

def log (level : Log.Level) (message : String) : Reported Unit :=
  Reported.log level logTarget message

def connect (transport : Transport) (past : List Traffic) : Reported (Except KeyError Session) := do
  log .debug "connecting to secretkeeper bootloader service"
  Reported.tell [.exchanged (.connected serviceName)]
  match transport.connect past serviceName with
  | .ok () => return .ok ⟨transport, past ++ [.connected serviceName]⟩
  | .error e => do
    log .error (s!"failed ({e.code}) to connect to '" ++ serviceName ++ "'")
    return .error (.ipc e)

/-- Judge a reply that was stored in a buffer of `capacity` bytes behind a response header. -/
def judge (request : Request) (capacity : Nat) (reply : Reply) (response : Response) :
    Except KeyError Nat :=
  if reply.length < Response.headerSize then .error (.shortResponse reply.length)
  else if response.command ≠ request.responseCommand then
    .error (.unexpectedResponse response.command)
  else if response.status ≠ 0 then .error (.service response.status)
  else if capacity < reply.length - Response.headerSize then
    .error (.payloadTooLarge (reply.length - Response.headerSize))
  else .ok (reply.length - Response.headerSize)

/-- What is logged about a reply that is not accepted. -/
def complaint : KeyError → List Event
  | .shortResponse length =>
    [.logged ⟨.error, logTarget, s!"invalid response size ({length})"⟩]
  | .unexpectedResponse command =>
    [.logged ⟨.error, logTarget, "unknown response cmd: " ++ hex command.toNat⟩]
  | .service status => [.logged ⟨.error, logTarget, s!"error code ({status}) is not zero"⟩]
  | _ => []

def receive (session : Session) (request : Request) (buffer : Bytes) :
    Reported (Except KeyError Identity × Session) := do
  let capacities := [Response.headerSize, buffer.length]
  Reported.tell [.exchanged (.received capacities)]
  let session' : Session := { session with past := session.past ++ [.received capacities] }
  match session.transport.receive session.past capacities with
  | .error e => do
    log .error s!"failure on receiving response: {e.code}"
    return (.error (.ipc e), session')
  | .ok reply =>
    let memory := reply.fill (Bytes.zeros Response.headerSize ++ buffer)
    let response := (Response.read? memory).getD ⟨0, 0⟩
    match judge request buffer.length reply response with
    | .ok length => return (.ok ⟨length, memory.drop Response.headerSize⟩, session')
    | .error e => do
      Reported.tell (complaint e)
      return (.error e, session')

def fetch (session : Session) (buffer : Bytes) : Reported (Except KeyError Identity × Session) := do
  let request : Request := ⟨getIdentity⟩
  let message := request.encode
  Reported.tell [.exchanged (.sent message)]
  let session' : Session := { session with past := session.past ++ [.sent message] }
  match session.transport.send session.past message with
  | .error e => do
    log .error s!"failed ({e.code}) to send request to secretkeeper"
    return (.error (.ipc e), session')
  | .ok () => session'.receive request buffer

def close (session : Session) : Reported Session := do
  Reported.tell [.exchanged .closed]
  return { session with past := session.past ++ [.closed] }

end Session

/-- Put a key into the node that is there for it. The tree grows first, by as much as any accepted
key needs. -/
def storeKey (key : Bytes) : Attempt KeyError Unit := do
  Attempt.mapError .tree (Attempt.edit (Tree.grow keyCapacity))
  match ← Attempt.mapError .tree (Attempt.ask (·.resolve keyNodePath)) with
  | none => throw .missingNode
  | some node =>
    Attempt.mapError .tree (Attempt.edit (Tree.setValue node "secretkeeper_public_key" key))
    Fixup.log .info logTarget s!"stored {key.length} byte secretkeeper key"

/-- Fetch the identity of the service and put it into the tree. -/
def populate (session : Session) : Fixup (Except KeyError Unit × Session) := do
  let (fetched, session) ←
    (liftM (session.fetch (Bytes.zeros keyCapacity)) : Fixup (Except KeyError Identity × Session))
  match fetched with
  | .error e => do
    Fixup.log .error logTarget s!"failed to get secretkeeper key (err = {e.code})"
    return (.error e, session)
  | .ok identity => return (← (storeKey identity.payload).run, session)

end KeyService

end BootTree
