import BootTree.Proofs.Image.Editing

/-!
# BootTree.Proofs.Bounds.Checked

Computations in which every access is checked. Lists are total, so a slice or an element that is not
there goes unnoticed; a checked computation faults on it, and on a number that leaves its word.

* `Checked`: the outcome of a computation, or a fault.
* `slice?`, `signed?`, `Checked.fits`: the accesses and the words.
* `cString?`, `StringList.next?`: the string at the front of some bytes, and what is behind it.
-/

namespace BootTree

open Blob

inductive Checked (α : Type) where
  | fault
  | of (outcome : Except TreeError α)
  deriving Repr

namespace Checked

variable {α β : Type}

def fail (e : TreeError) : Checked α := of (.error e)

/-- An access, which faults if it is out of bounds. -/
def access : Option α → Checked α
  | none => fault
  | some a => of (.ok a)

def ofOption : Option (Except TreeError α) → Checked α
  | none => fault
  | some outcome => of outcome

instance : Monad Checked where
  pure a := of (.ok a)
  bind x f :=
    match x with
    | fault => fault
    | of (.error e) => fail e
    | of (.ok a) => f a

@[simp] theorem of_ok_bind (a : α) (f : α → Checked β) : (of (.ok a) >>= f) = f a := rfl

theorem access_bind {found : Option α} {a : α} (h : found = some a) (f : α → Checked β) :
    (access found >>= f) = f a := by
  rw [h]
  rfl

/-- Whether a position is a 64-bit word. -/
def fits (position : Nat) : Checked Unit := if position < 2 ^ 64 then pure () else fault

theorem fits_bind {position : Nat} (h : position < 2 ^ 64) (f : Unit → Checked α) :
    (fits position >>= f) = f () := by
  rw [fits, if_pos h]
  rfl

theorem fits_bind_of_le {position : Nat} (h : 2 ^ 64 ≤ position) (f : Unit → Checked α) :
    (fits position >>= f) = fault := by
  rw [fits, if_neg (Nat.not_lt.2 h)]
  rfl

end Checked

/-! ## Slices and words -/

section Slices

variable {α : Type} {items : List α} {first behind : Nat}

/-- The items from `first` up to, but not including, the one at `behind`. -/
def slice? (items : List α) (first behind : Nat) : Option (List α) :=
  if first ≤ behind ∧ behind ≤ items.length then some ((items.drop first).take (behind - first))
  else none

theorem slice?_of_le (h : first ≤ behind ∧ behind ≤ items.length) :
    slice? items first behind = some ((items.drop first).take (behind - first)) :=
  if_pos h

theorem slice?_tail (h : first ≤ items.length) :
    slice? items first items.length = some (items.drop first) := by
  rw [slice?_of_le ⟨h, Nat.le_refl _⟩, List.take_of_length_le (by rw [List.length_drop])]

end Slices

/-- The signed 32-bit word of a number. -/
def signed? (d : Int) : Option Int := if -2 ^ 31 ≤ d ∧ d < 2 ^ 31 then some d else none

theorem signed?_of_le {d : Int} (h : -2 ^ 31 ≤ d ∧ d < 2 ^ 31) : signed? d = some d := if_pos h

/-! ## Strings -/

/-- The bytes in front of the first zero byte. -/
def cString? (bytes : Bytes) : Option Bytes :=
  if 0 ∈ bytes then some (bytes.takeWhile (· ≠ 0)) else none

theorem cString?_append {entry : Bytes} (h : 0 ∉ entry) (rest : Bytes) :
    cString? (entry ++ 0 :: rest) = some entry := by
  rw [cString?, if_pos (by simp), Token.takeWhile_ne_zero h]

namespace StringList

variable {value rest : Bytes}

/-- Read the entry at the front, and go on behind its terminator. -/
def next? (value : Bytes) : Option (Except ValueError Bytes × Bytes) :=
  match cString? value with
  | none => some (.error .unterminated, value)
  | some entry =>
    (slice? value (entry.length + 1) value.length).map fun rest =>
      (if Bytes.isText entry then .ok entry else .error .notText, rest)

/-- An entry is read up to a terminator that is there. -/
theorem next?_eq (value : Bytes) : next? value = some (next value) := by
  by_cases hmem : 0 ∈ value
  · obtain ⟨entry, rest, rfl, hentry⟩ := List.eq_append_cons_of_mem hmem
    have hlength : entry.length + 1 ≤ (entry ++ 0 :: rest).length := by simp
    rw [next?, cString?_append hentry]
    dsimp only
    rw [slice?_tail hlength, next, split_append hentry]
    rfl
  · rw [next?, cString?, if_neg hmem, next_of_not_mem hmem]

theorem append_of_next? {entry : Except ValueError Bytes} (h : next? value = some (entry, rest)) :
    (0 ∉ value ∧ entry = .error .unterminated) ∨ ∃ front, 0 ∉ front ∧ value = front ++ 0 :: rest ∧
      entry = if Bytes.isText front then .ok front else .error .notText := by
  rw [next?_eq, Option.some.injEq] at h
  exact append_of_next h

end StringList

end BootTree
