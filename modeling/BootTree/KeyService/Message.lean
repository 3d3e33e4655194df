import BootTree.Bytes

/-!
# BootTree.KeyService.Message

The messages that the bootloader exchanges with the key service. Requests and responses start with
a header of big-endian words; the command of a response is that of its request with the top bit set.
-/

namespace BootTree

namespace KeyService

def serviceName : String := "com.android.trusty.secretkeeper.bootloader"

def responseMarker : UInt32 := 0x80000000

/-- The command that asks for the public half of the service's key. -/
def getIdentity : UInt32 := 1

structure Request where
  command : UInt32
  deriving DecidableEq, Repr

namespace Request

def encode (r : Request) : Bytes := Bytes.word r.command

def responseCommand (r : Request) : UInt32 := r.command ||| responseMarker

end Request

/-- What every response starts with; the payload stands behind it. -/
structure Response where
  command : UInt32
  /-- Zero on success. -/
  status : UInt32
  deriving DecidableEq, Repr

namespace Response

def headerSize : Nat := 8

def encode (r : Response) : Bytes := Bytes.word r.command ++ Bytes.word r.status

/-- The header at the front of a message; `none` if the message is shorter. -/
def read? (message : Bytes) : Option Response := do
  let command ← Bytes.word? message
  let status ← Bytes.word? (message.drop 4)
  return ⟨command, status⟩

@[simp] theorem read?_encode_append (r : Response) (payload : Bytes) :
    read? (r.encode ++ payload) = some r := by
  have hdrop : List.drop 4 (r.encode ++ payload) = Bytes.word r.status ++ payload := by
    rw [encode, List.append_assoc]; exact List.drop_left' (Bytes.length_word _)
  have hhead : Bytes.word? (r.encode ++ payload) = some r.command := by
    rw [encode, List.append_assoc]; exact Bytes.word?_word_append _ _
  simp [read?, hdrop, hhead]

end Response

end KeyService

end BootTree
