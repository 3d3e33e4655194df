import BootTree.Bytes

/-!
# BootTree.Blob.Reservation

The memory reservation block: entries of sixteen bytes, up to the first one that is all zero.

* `Reservation.encode` — the sixteen bytes of an entry.
* `Reservation.readBlock` — the entries in front of the terminator.
* `Reservation.readBlock_encodeBlock` — reading what was written gives the entries back, provided
  none of them looks like the terminator.
-/

namespace BootTree

namespace Blob

def entrySize : Nat := 16

inductive ReservationError where
  | tooShort
  | unterminated
  deriving DecidableEq, Repr

def ReservationError.message : ReservationError → String
  | tooShort => "The memory reservation block is smaller than 16 bytes"
  | unterminated => "The memory reservation block does not contain a proper terminator"

/-- A stretch of physical memory that the operating system must leave alone. -/
structure Reservation where
  address : UInt64
  size : UInt64
  deriving DecidableEq, Repr

namespace Reservation

def terminator : Reservation := ⟨0, 0⟩

def encode (r : Reservation) : Bytes := Bytes.doubleWord r.address ++ Bytes.doubleWord r.size

@[simp] theorem length_encode (r : Reservation) : r.encode.length = entrySize := rfl

def read? (buffer : Bytes) : Option Reservation := do
  let address ← Bytes.doubleWord? buffer
  let size ← Bytes.doubleWord? (buffer.drop 8)
  return ⟨address, size⟩

@[simp] theorem read?_encode_append (r : Reservation) (rest : Bytes) :
    read? (r.encode ++ rest) = some r := by
  have hdrop : List.drop 8 (r.encode ++ rest) = Bytes.doubleWord r.size ++ rest := by
    rw [encode, List.append_assoc]
    exact List.drop_left' (Bytes.length_doubleWord _)
  have hhead : Bytes.doubleWord? (r.encode ++ rest) = some r.address := by
    rw [encode, List.append_assoc]; exact Bytes.doubleWord?_doubleWord_append _ _
  simp [read?, hdrop, hhead]

theorem length_of_read? {buffer : Bytes} {r : Reservation} (h : read? buffer = some r) :
    entrySize ≤ buffer.length := by
  have hlow : (Bytes.word? ((buffer.drop 8).drop 4)).isSome := by
    simp only [read?, Bytes.doubleWord?, Option.bind_eq_bind, Option.pure_def,
      Option.bind_eq_some_iff] at h
    obtain ⟨_, _, _, ⟨_, _, w, hw, _⟩, _⟩ := h
    rw [hw]; rfl
  rw [Bytes.word?_isSome_iff] at hlow
  simp only [List.length_drop] at hlow
  unfold entrySize; omega

/-- The entries of a buffer up to the first terminator; `none` if the buffer ends before one. -/
def entries? (buffer : Bytes) : Option (List Reservation) :=
  match _h : read? buffer with
  | none => none
  | some r =>
    if r = terminator then some []
    else (entries? (buffer.drop entrySize)).map (r :: ·)
termination_by buffer.length
decreasing_by
  have := length_of_read? _h
  simp only [List.length_drop]; unfold entrySize at *; omega

def readBlock (buffer : Bytes) : Except ReservationError (List Reservation) :=
  if buffer.length < entrySize then .error .tooShort
  else
    match entries? buffer with
    | none => .error .unterminated
    | some entries => .ok entries

def encodeBlock (entries : List Reservation) : Bytes :=
  entries.flatMap encode ++ terminator.encode

@[simp] theorem length_encodeBlock (entries : List Reservation) :
    (encodeBlock entries).length = entrySize * (entries.length + 1) := by
  induction entries with
  | nil => rfl
  | cons r rs ih =>
    have : encodeBlock (r :: rs) = r.encode ++ encodeBlock rs := by
      simp [encodeBlock, List.append_assoc]
    rw [this, List.length_append, ih, length_encode]; simp [Nat.mul_add]; omega

theorem entries?_encodeBlock {entries : List Reservation} (h : terminator ∉ entries) (rest : Bytes) :
    entries? (encodeBlock entries ++ rest) = some entries := by
  induction entries with
  | nil =>
    have h₀ : read? (encodeBlock [] ++ rest) = some terminator := read?_encode_append terminator rest
    rw [entries?]
    split
    · rename_i heq; rw [h₀] at heq; cases heq
    · rename_i heq; rw [h₀] at heq; cases heq; rfl
  | cons r rs ih =>
    simp only [List.mem_cons, not_or] at h
    have hsplit : encodeBlock (r :: rs) ++ rest = r.encode ++ (encodeBlock rs ++ rest) := by
      simp [encodeBlock, List.append_assoc]
    have h₀ : read? (encodeBlock (r :: rs) ++ rest) = some r := by
      rw [hsplit]; exact read?_encode_append _ _
    have h₁ : (encodeBlock (r :: rs) ++ rest).drop entrySize = encodeBlock rs ++ rest := by
      rw [hsplit]; exact List.drop_left' (length_encode r)
    rw [entries?]
    split
    · rename_i heq; rw [h₀] at heq; cases heq
    · rename_i heq
      rw [h₀] at heq
      cases heq
      rw [if_neg (fun hr => h.1 hr.symm), h₁, ih h.2]; rfl

theorem readBlock_encodeBlock {entries : List Reservation} (h : terminator ∉ entries)
    (rest : Bytes) : readBlock (encodeBlock entries ++ rest) = .ok entries := by
  have hlen : ¬ (encodeBlock entries ++ rest).length < entrySize := by
    simp only [List.length_append, length_encodeBlock, Nat.mul_add]; omega
  rw [readBlock, if_neg hlen, entries?_encodeBlock h]

end Reservation

end Blob

end BootTree
