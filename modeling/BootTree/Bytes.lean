/-!
# BootTree.Bytes

Byte strings and the big-endian words they hold. Everything a boot stage hands to the next one is a
flat list of bytes, so this is the ground the other modules stand on.

* `word`, `word?` — 32-bit words; what one writes the other reads back (`word?_word_append`).
* `doubleWord`, `doubleWord?` — the same for 64-bit words.
* `alignUp`, `padded` — rounding up to the four byte boundary that tokens are aligned to.
-/

namespace BootTree

abbrev Bytes := List UInt8

namespace Bytes

def zeros (n : Nat) : Bytes := List.replicate n 0

@[simp] theorem length_zeros (n : Nat) : (zeros n).length = n := by simp [zeros]

/-! ## Alignment -/

/-- The least multiple of four that is not below `n`. -/
def alignUp (n : Nat) : Nat := (n + 3) / 4 * 4

theorem le_alignUp (n : Nat) : n ≤ alignUp n := by unfold alignUp; omega

theorem alignUp_mod (n : Nat) : alignUp n % 4 = 0 := by unfold alignUp; omega

theorem alignUp_add {k : Nat} (h : k % 4 = 0) (n : Nat) : alignUp (k + n) = k + alignUp n := by
  unfold alignUp; omega

def padded (bytes : Bytes) : Bytes := bytes ++ zeros (alignUp bytes.length - bytes.length)

@[simp] theorem length_padded (bytes : Bytes) : (padded bytes).length = alignUp bytes.length := by
  have := le_alignUp bytes.length
  simp [padded]; omega

/-! ## Words -/

/-- The four bytes of a word, most significant first. -/
def word (w : UInt32) : Bytes :=
  [UInt8.ofNat (w.toNat / 0x1000000), UInt8.ofNat (w.toNat / 0x10000), UInt8.ofNat (w.toNat / 0x100),
    UInt8.ofNat w.toNat]

def word? : Bytes → Option UInt32
  | a :: b :: c :: d :: _ =>
    some (UInt32.ofNat (((a.toNat * 256 + b.toNat) * 256 + c.toNat) * 256 + d.toNat))
  | _ => none

@[simp] theorem length_word (w : UInt32) : (word w).length = 4 := rfl

@[simp] theorem word?_word_append (w : UInt32) (rest : Bytes) : word? (word w ++ rest) = some w := by
  have hw := w.toNat_lt
  simp only [word, List.cons_append, List.nil_append, word?, UInt8.toNat_ofNat', Option.some.injEq]
  apply UInt32.toNat_inj.1
  rw [UInt32.toNat_ofNat']
  omega

@[simp] theorem word?_word (w : UInt32) : word? (word w) = some w := by
  simpa using word?_word_append w []

theorem word?_eq_none_iff {bytes : Bytes} : word? bytes = none ↔ bytes.length < 4 := by
  match bytes with
  | [] | [_] | [_, _] | [_, _, _] => simp [word?]
  | _ :: _ :: _ :: _ :: _ => simp [word?]

theorem word?_isSome_iff {bytes : Bytes} : (word? bytes).isSome ↔ 4 ≤ bytes.length := by
  rw [← Option.ne_none_iff_isSome, ne_eq, word?_eq_none_iff]; omega

theorem eq_word_append_of_word? {bytes : Bytes} {w : UInt32} (h : word? bytes = some w) :
    bytes = word w ++ bytes.drop 4 := by
  match bytes with
  | [] | [_] | [_, _] | [_, _, _] => simp [word?] at h
  | a :: b :: c :: d :: rest =>
    have ha := a.toNat_lt; have hb := b.toNat_lt; have hc := c.toNat_lt; have hd := d.toNat_lt
    simp only [word?, Option.some.injEq] at h
    subst h
    simp only [word, List.cons_append, List.nil_append, List.drop_succ_cons, List.drop_zero,
      List.cons.injEq, and_true, ← UInt8.toNat_inj, UInt8.toNat_ofNat', UInt32.toNat_ofNat']
    omega

/-- The eight bytes of a double word, most significant first. -/
def doubleWord (w : UInt64) : Bytes :=
  word (UInt32.ofNat (w.toNat / 0x100000000)) ++ word (UInt32.ofNat w.toNat)

def doubleWord? (bytes : Bytes) : Option UInt64 := do
  let high ← word? bytes
  let low ← word? (bytes.drop 4)
  return UInt64.ofNat (high.toNat * 0x100000000 + low.toNat)

@[simp] theorem length_doubleWord (w : UInt64) : (doubleWord w).length = 8 := rfl

@[simp] theorem doubleWord?_doubleWord_append (w : UInt64) (rest : Bytes) :
    doubleWord? (doubleWord w ++ rest) = some w := by
  have hw := w.toNat_lt
  have hdrop : List.drop 4 (doubleWord w ++ rest) = word (UInt32.ofNat w.toNat) ++ rest := by
    rw [doubleWord, List.append_assoc]
    exact List.drop_left' (length_word _)
  have hhead : word? (doubleWord w ++ rest) = some (UInt32.ofNat (w.toNat / 0x100000000)) := by
    simp [doubleWord, List.append_assoc]
  simp only [doubleWord?, hdrop, hhead, word?_word_append, Option.bind_eq_bind, Option.bind_some,
    Option.pure_def, Option.some.injEq]
  apply UInt64.toNat_inj.1
  rw [UInt64.toNat_ofNat', UInt32.toNat_ofNat', UInt32.toNat_ofNat']
  omega

/-! ## Replacing a stretch -/

/-- `bytes` with the `old` bytes at `offset` replaced by `new`. -/
def splice (bytes : Bytes) (offset old : Nat) (new : Bytes) : Bytes :=
  bytes.take offset ++ new ++ bytes.drop (offset + old)

theorem length_splice {bytes new : Bytes} {offset old : Nat} (h : offset + old ≤ bytes.length) :
    (splice bytes offset old new).length + old = bytes.length + new.length := by
  simp [splice]; omega

end Bytes

end BootTree
