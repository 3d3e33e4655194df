import BootTree.Bytes

/-!
# BootTree.Text

How text and byte strings relate, and how numbers are written in messages. Names inside a tree are
byte strings; a string literal stands for its UTF-8 bytes.

* `Bytes.ofText`, `Bytes.text?` — encoding and checked decoding; `text?_eq_some_iff` makes them
  inverse to each other.
* `hex` — a number as `0x` and lower-case digits without leading zeros.
-/

namespace BootTree

namespace Bytes

def ofText (s : String) : Bytes := s.toUTF8.data.toList

instance : Coe String Bytes := ⟨ofText⟩

/-- The string whose UTF-8 bytes these are, if they are the bytes of one. -/
def text? (bytes : Bytes) : Option String := String.fromUTF8? ⟨bytes.toArray⟩

theorem text?_eq_some_iff {bytes : Bytes} {s : String} : text? bytes = some s ↔ ofText s = bytes := by
  unfold text? ofText String.fromUTF8?
  constructor
  · intro h
    split at h
    · cases h; rfl
    · cases h
  · rintro rfl
    have hdata : (ByteArray.mk s.toUTF8.data.toList.toArray) = s.toUTF8 := by simp
    have hvalid : s.toUTF8.IsValidUTF8 := s.isValidUTF8
    rw [hdata, dif_pos hvalid]
    rfl

@[simp] theorem text?_ofText (s : String) : text? (ofText s) = some s := text?_eq_some_iff.2 rfl

@[simp] theorem ofText_inj {s t : String} : ofText s = ofText t ↔ s = t := by
  constructor
  · intro h
    rw [← Option.some.injEq, ← text?_ofText s, h, text?_ofText]
  · intro h
    rw [h]

def isText (bytes : Bytes) : Bool := (text? bytes).isSome

@[simp] theorem isText_ofText (s : String) : isText (ofText s) = true := by simp [isText]

theorem isText_iff {bytes : Bytes} : isText bytes = true ↔ ∃ s, ofText s = bytes := by
  simp [isText, Option.isSome_iff_exists, text?_eq_some_iff]

end Bytes

/-! ## Numbers in messages -/

def hexDigits (n : Nat) : String := String.ofList (Nat.toDigits 16 n)

/-- A number as messages write addresses: `0x` and its hexadecimal digits. -/
def hex (n : Nat) : String := "0x" ++ hexDigits n

/-- A list of words as messages write it: hexadecimal digits between brackets. -/
def hexList (words : List UInt32) : String :=
  "[" ++ ", ".intercalate (words.map fun w => hexDigits w.toNat) ++ "]"

end BootTree
