import BootTree.Text
import BootTree.Blob.Header
import BootTree.Blob.Reservation
import BootTree.Blob.Strings

/-!
# BootTree.Tree.Error

Everything that can go wrong when a device tree is read or edited, with the text and the status
number of each cause. Status numbers are negative; related causes share one.
-/

namespace BootTree

inductive TreeError where
  | header (cause : Blob.HeaderError)
  | reservations (cause : Blob.ReservationError)
  | propertyName (cause : Blob.StringsError)
  /-- A block lies outside of the buffer of `size` bytes. -/
  | truncated (size : Nat)
  /-- No token that fits the place can be read at `offset`. -/
  | badStructure (offset : Nat)
  /-- No node begins at `offset`. -/
  | badOffset (offset : Nat)
  /-- An edit would need `needed` more bytes than it found. -/
  | noSpace (needed : Nat)
  | notFound
  | alreadyExists
  | badName
  | badPhandle (raw : UInt32)
  /-- A value of `length` bytes is not of the type asked for. -/
  | badValue (length : Nat)
  | badCellCount
  | sizeLimit (size limit : Nat)
  deriving DecidableEq, Repr

namespace TreeError

def message : TreeError → String
  | header cause => "Could not parse the fdt header: " ++ cause.message
  | reservations cause => "Could not parse memory reservation block: " ++ cause.message
  | propertyName cause => "Could not resolve a property name: " ++ cause.message
  | truncated size => s!"The blocks described by the header do not fit into the {size} byte buffer"
  | badStructure offset => s!"The structure block contains an invalid token at offset {offset}"
  | badOffset offset => s!"Offset {offset} does not point to the start of a node"
  | noSpace needed => s!"The device tree blob has no free space left for {needed} more bytes"
  | notFound => "The requested item does not exist"
  | alreadyExists => "A node with the requested name already exists"
  | badName => "The node name is not valid"
  | badPhandle raw => "The phandle " ++ hex raw.toNat ++ " does not reference any node"
  | badValue length => s!"The property value has an unexpected length of {length} bytes"
  | badCellCount => "The #cells property of the referenced node is missing or invalid"
  | sizeLimit size limit =>
    s!"Growing the device tree to {size} bytes would exceed its {limit} byte limit"

def code : TreeError → Int
  | notFound => -1
  | alreadyExists => -2
  | noSpace _ | sizeLimit _ _ => -3
  | badOffset _ => -4
  | badName => -5
  | badPhandle _ => -6
  | truncated _ | header .tooShort | reservations .tooShort => -8
  | header .badMagic => -9
  | header (.unsupportedVersion _ _) => -10
  | badStructure _ | propertyName _ | reservations .unterminated => -11
  | badCellCount => -14
  | badValue _ => -15
  | header .misaligned => -19

def messageWithCode (e : TreeError) : String := s!"{e.message} ({e.code})"

theorem code_neg (e : TreeError) : e.code < 0 := by
  cases e with
  | header cause => cases cause <;> simp [code]
  | reservations cause => cases cause <;> simp [code]
  | _ => simp [code]

end TreeError

end BootTree
