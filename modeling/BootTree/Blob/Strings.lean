import BootTree.Bytes

/-!
# BootTree.Blob.Strings

The strings block, which holds the zero-terminated names of all properties. A name may start in
the middle of a longer one, so `names` is found inside `interrupt-names`.

* `Strings.read` — the name that starts at an offset.
* `Strings.find?` — the first offset at which a name can be read.
* `Strings.append` — the block with one more name at its end.
-/

namespace BootTree

namespace Blob

inductive StringsError where
  | outOfBounds (offset size : Nat)
  | unterminated (offset : Nat)
  deriving DecidableEq, Repr

def StringsError.message : StringsError → String
  | outOfBounds offset size => s!"No string could be found at offset {offset} in buffer of size {size}"
  | unterminated offset => s!"There was data at offset {offset} but it was not zero-terminated"

namespace Strings

def read (block : Bytes) (offset : Nat) : Except StringsError Bytes :=
  if block.length < offset then .error (.outOfBounds offset block.length)
  else
    let tail := block.drop offset
    if 0 ∈ tail then .ok (tail.takeWhile (· ≠ 0)) else .error (.unterminated offset)

/-- The first offset at which `name` stands with a zero byte behind it. -/
def find? : (block : Bytes) → (name : Bytes) → Option Nat
  | [], _ => none
  | b :: rest, name =>
    if (name ++ [0]).isPrefixOf (b :: rest) then some 0 else (find? rest name).map (· + 1)

def append (block : Bytes) (name : Bytes) : Bytes := block ++ name ++ [0]

end Strings

end Blob

end BootTree
