import BootTree.Bytes
import BootTree.Value.Error

/-!
# BootTree.Value.Cells

Property values that are arrays of big-endian 32-bit cells.

* `Cells.encode`, `Cells.decode` — inverse to each other (`decode_encode`, `encode_of_decode`);
  exactly the values made of whole cells can be decoded (`isOk_decode_iff`).
* `Cells.whole` — the whole cells of any value, without a trailing partial one.
* `Cells.get?` — one cell, looked up where it stands; `get?_eq` says that it is one of those.
-/

namespace BootTree

namespace Cells

def encode (cells : List UInt32) : Bytes := cells.flatMap Bytes.word

/-- The whole cells at the front of a value; up to three bytes behind them are not looked at. -/
def whole : Bytes → List UInt32
  | a :: b :: c :: d :: rest => (Bytes.word? [a, b, c, d]).toList ++ whole rest
  | _ => []

def decode (value : Bytes) : Except ValueError (List UInt32) :=
  if value.length % 4 = 0 then .ok (whole value) else .error .partialCell

/-- The cell at an index. Positions are 64-bit words: an index whose first byte has no position has
no cell, and one that would end at position `2 ^ 64` ends at zero, in front of where it begins. -/
def get? (value : Bytes) (index : Nat) : Option UInt32 :=
  let first := 4 * index
  let behind := (first + 4) % 0x10000000000000000
  if first < 0x10000000000000000 ∧ first ≤ behind ∧ behind ≤ value.length then
    Bytes.word? ((value.drop first).take (behind - first))
  else none

@[simp] theorem length_encode (cells : List UInt32) : (encode cells).length = 4 * cells.length := by
  induction cells with
  | nil => rfl
  | cons c cs ih =>
    have : encode (c :: cs) = Bytes.word c ++ encode cs := rfl
    rw [this, List.length_append, ih]; simp; omega

theorem whole_encode_append (cells : List UInt32) {tail : Bytes} (h : tail.length < 4) :
    whole (encode cells ++ tail) = cells := by
  induction cells with
  | nil =>
    match tail with
    | [] | [_] | [_, _] | [_, _, _] => rfl
    | _ :: _ :: _ :: _ :: _ => simp at h; omega
  | cons c cs ih =>
    have hw : Bytes.word? (Bytes.word c) = some c := Bytes.word?_word c
    have : encode (c :: cs) ++ tail = Bytes.word c ++ (encode cs ++ tail) := by
      simp [encode, List.append_assoc]
    rw [this]
    simp only [Bytes.word, List.cons_append, List.nil_append] at hw ⊢
    rw [whole, hw, ih]; rfl

theorem encode_whole_append (value : Bytes) :
    encode (whole value) ++ value.drop (4 * (whole value).length) = value ∧
      (value.drop (4 * (whole value).length)).length < 4 := by
  match value with
  | [] | [_] | [_, _] | [_, _, _] => simp [whole, encode]
  | a :: b :: c :: d :: rest =>
    obtain ⟨h₁, h₂⟩ := encode_whole_append rest
    obtain ⟨w, hw⟩ : ∃ w, Bytes.word? [a, b, c, d] = some w := ⟨_, rfl⟩
    have hword := Bytes.eq_word_append_of_word? hw
    simp only [List.drop_succ_cons, List.drop_zero, List.append_nil] at hword
    have hwhole : whole (a :: b :: c :: d :: rest) = w :: whole rest := by rw [whole, hw]; rfl
    have hdrop : (a :: b :: c :: d :: rest).drop (4 * (whole rest).length + 4)
        = rest.drop (4 * (whole rest).length) := by simp [List.drop_succ_cons]
    rw [hwhole, List.length_cons, Nat.mul_add, Nat.mul_one, hdrop]
    refine ⟨?_, h₂⟩
    have : encode (w :: whole rest) = Bytes.word w ++ encode (whole rest) := rfl
    rw [this, List.append_assoc, h₁, ← hword]; rfl

theorem length_whole (value : Bytes) : (whole value).length = value.length / 4 := by
  obtain ⟨h₁, h₂⟩ := encode_whole_append value
  have := congrArg List.length h₁
  simp only [List.length_append, length_encode] at this
  omega

theorem getElem?_whole (value : Bytes) (index : Nat) :
    (whole value)[index]? = Bytes.word? (value.drop (4 * index)) := by
  match value with
  | [] | [_] | [_, _] | [_, _, _] =>
    refine Eq.trans (b := none) rfl (Bytes.word?_eq_none_iff.2 ?_).symm
    simp only [List.length_drop, List.length_cons, List.length_nil]
    omega
  | a :: b :: c :: d :: rest =>
    have hwhole : whole (a :: b :: c :: d :: rest) =
        (Bytes.word? [a, b, c, d]).toList ++ whole rest := by rw [whole]
    cases index with
    | zero => rw [hwhole]; rfl
    | succ index =>
      have hdrop : (a :: b :: c :: d :: rest).drop (4 * (index + 1)) = rest.drop (4 * index) := by
        rw [Nat.mul_succ, Nat.add_comm, ← List.drop_drop]
        rfl
      rw [hdrop, ← getElem?_whole rest index, hwhole]
      rfl

/-- Positions of a value that is there do not leave their words. -/
theorem get?_eq {value : Bytes} (h : value.length < 0x10000000000000000) (index : Nat) :
    get? value index = (whole value)[index]? := by
  rw [getElem?_whole, get?]
  split
  · rename_i hin
    have hbehind : (4 * index + 4) % 0x10000000000000000 = 4 * index + 4 := by omega
    rw [hbehind, Nat.add_sub_cancel_left]
    match hdrop : value.drop (4 * index) with
    | [] | [_] | [_, _] | [_, _, _] | _ :: _ :: _ :: _ :: _ => rfl
  · rename_i hout
    refine (Bytes.word?_eq_none_iff.2 ?_).symm
    rw [List.length_drop]
    omega

@[simp] theorem decode_encode (cells : List UInt32) : decode (encode cells) = .ok cells := by
  have := @whole_encode_append cells [] (by simp)
  rw [List.append_nil] at this
  simp [decode, this]

theorem encode_of_decode {value : Bytes} {cells : List UInt32} (h : decode value = .ok cells) :
    encode cells = value := by
  unfold decode at h
  split at h
  · rename_i hlen
    cases h
    obtain ⟨h₁, -⟩ := encode_whole_append value
    rw [List.drop_eq_nil_of_le (by rw [length_whole]; omega), List.append_nil] at h₁
    exact h₁
  · cases h

theorem isOk_decode_iff {value : Bytes} : (decode value).isOk = true ↔ value.length % 4 = 0 := by
  unfold decode
  split <;> simp_all [Except.isOk, Except.toBool]

end Cells

end BootTree
