import BootTree.Bytes

/-!
# BootTree.Blob.Header

The ten big-endian words at the start of every flattened device tree. They give the layout of the
blob: where its blocks are and how large they are.

* `Header.encode` — the forty bytes of a header.
* `Header.read` — a header from the front of a buffer. The magic word is judged as soon as it is
  there and the versions as soon as both are, before the rest of the header is asked for.
* `Header.load` — the same from memory, which only succeeds on an eight byte boundary.
-/

namespace BootTree

namespace Blob

def magic : UInt32 := 0xd00dfeed

def layoutVersion : UInt32 := 17

def lastCompatibleVersion : UInt32 := 16

def headerSize : Nat := 40

inductive HeaderError where
  | badMagic
  | tooShort
  | unsupportedVersion (version lastCompatible : UInt32)
  | misaligned
  deriving DecidableEq, Repr

def HeaderError.message : HeaderError → String
  | badMagic => "The provided buffer did not contain the required magic bytes at the start"
  | tooShort => "The provided buffer did not contain enough bytes to read a header from it"
  | unsupportedVersion version lastCompatible =>
    s!"The device tree blob is encoded using version {version} (with last compatible version being {lastCompatible}) which is not supported"
  | misaligned => "The device tree blob is not aligned to an 8-byte boundary"

/-- The fields of a header, in the order in which they are stored. -/
structure Header where
  magic : UInt32
  totalSize : UInt32
  structOffset : UInt32
  stringsOffset : UInt32
  reservationsOffset : UInt32
  version : UInt32
  lastCompatible : UInt32
  bootCpu : UInt32
  stringsSize : UInt32
  structSize : UInt32
  deriving DecidableEq, Repr

namespace Header

def fields (h : Header) : List UInt32 :=
  [h.magic, h.totalSize, h.structOffset, h.stringsOffset, h.reservationsOffset, h.version,
    h.lastCompatible, h.bootCpu, h.stringsSize, h.structSize]

def encode (h : Header) : Bytes := h.fields.flatMap Bytes.word

@[simp] theorem length_encode (h : Header) : h.encode.length = headerSize := rfl

def wordAt (buffer : Bytes) (index : Nat) : Except HeaderError UInt32 :=
  match Bytes.word? (buffer.drop (4 * index)) with
  | some w => .ok w
  | none => .error .tooShort

/-- Whether a blob of these versions can be read. The size of the structure block is part of the
header since version 17, and blobs of later layouts must still be readable as version 17. -/
def supports (version lastCompatible : UInt32) : Bool :=
  layoutVersion ≤ version && lastCompatible ≤ layoutVersion

def read (buffer : Bytes) : Except HeaderError Header := do
  let magic ← wordAt buffer 0
  unless magic = Blob.magic do throw .badMagic
  let totalSize ← wordAt buffer 1
  let structOffset ← wordAt buffer 2
  let stringsOffset ← wordAt buffer 3
  let reservationsOffset ← wordAt buffer 4
  let version ← wordAt buffer 5
  let lastCompatible ← wordAt buffer 6
  unless supports version lastCompatible do throw (.unsupportedVersion version lastCompatible)
  let bootCpu ← wordAt buffer 7
  let stringsSize ← wordAt buffer 8
  let structSize ← wordAt buffer 9
  return { magic, totalSize, structOffset, stringsOffset, reservationsOffset, version,
           lastCompatible, bootCpu, stringsSize, structSize }

def memoryRange (memory : Nat → UInt8) (address count : Nat) : Bytes :=
  (List.range count).map fun i => memory (address + i)

def load (memory : Nat → UInt8) (address : Nat) : Except HeaderError Header :=
  if address % 8 ≠ 0 then .error .misaligned
  else read (memoryRange memory address headerSize)

end Header

end Blob

end BootTree
