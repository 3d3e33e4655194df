/-!
# BootTree.Value.Error

Why a raw property value cannot be read as the type it is asked for.
-/

namespace BootTree

inductive ValueError where
  /-- A list of cells whose length is no multiple of the cell size. -/
  | partialCell
  | unterminated
  | notText
  deriving DecidableEq, Repr

def ValueError.message : ValueError → String
  | partialCell => "The raw property value had an invalid length"
  | unterminated => "The raw property value is not null-terminated"
  | notText => "The raw property is not valid UTF-8"

end BootTree
