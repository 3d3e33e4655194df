import Mathlib
import BootTree.Blob.Header
import BootTree.Blob.Reservation

/-!
# BootTree.Proofs.Blob.Blocks

The header and the reservation block, written and read. A header of a supported version is read
back from its forty bytes, and the entries of a reservation block are exactly those whose block
stands at the front of the buffer.

* `Header.read_encode_append`: a header is read back; `Header.isPrefix_of_read`: what is read as one
  stands at the front of the buffer.
* `Reservation.entries?_eq_some_iff`: which buffers start with a reservation block.
-/

namespace BootTree

namespace Bytes

theorem eq_doubleWord_append_of_doubleWord? {bytes : Bytes} {w : UInt64}
    (h : doubleWord? bytes = some w) : bytes = doubleWord w ++ bytes.drop 8 := by
  simp only [doubleWord?, Option.bind_eq_bind, Option.pure_def, Option.bind_eq_some_iff,
    Option.some.injEq] at h
  obtain ⟨high, hhigh, low, hlow, rfl⟩ := h
  have hh := high.toNat_lt
  have hl := low.toNat_lt
  have hsum : (UInt64.ofNat (high.toNat * 0x100000000 + low.toNat)).toNat =
      high.toNat * 0x100000000 + low.toNat := by
    rw [UInt64.toNat_ofNat', Nat.mod_eq_of_lt (by omega)]
  have hhigh' : UInt32.ofNat ((high.toNat * 0x100000000 + low.toNat) / 0x100000000) = high := by
    rw [show (high.toNat * 0x100000000 + low.toNat) / 0x100000000 = high.toNat by omega, UInt32.ofNat_toNat]
  have hlow' : UInt32.ofNat (high.toNat * 0x100000000 + low.toNat) = low := by
    apply UInt32.toNat_inj.1
    rw [UInt32.toNat_ofNat']
    omega
  have hrest := eq_word_append_of_word? hlow
  rw [List.drop_drop] at hrest
  rw [doubleWord, hsum, hhigh', hlow', List.append_assoc, ← hrest, ← eq_word_append_of_word? hhigh]

end Bytes

theorem exists_of_bind_eq_ok {ε α β : Type} {x : Except ε α} {f : α → Except ε β} {b : β}
    (h : x >>= f = .ok b) : ∃ a, x = .ok a ∧ f a = .ok b := by
  cases x with
  | error e => cases h
  | ok a => exact ⟨a, rfl, h⟩

theorem mapError_eq_ok_iff {ε δ α : Type} {x : Except ε α} {f : ε → δ} {a : α} :
    x.mapError f = .ok a ↔ x = .ok a := by
  cases x with
  | error e => simp [Except.mapError]
  | ok b => simp [Except.mapError]

namespace Blob

namespace Header

theorem wordAt_eq_ok_iff {buffer : Bytes} {i : Nat} {w : UInt32} :
    wordAt buffer i = .ok w ↔ Bytes.word? (buffer.drop (4 * i)) = some w := by
  unfold wordAt
  cases Bytes.word? (buffer.drop (4 * i)) with
  | none => simp
  | some v => simp

theorem wordAt_flatMap (words : List UInt32) (rest : Bytes) {i : Nat} {w : UInt32}
    (h : words[i]? = some w) : wordAt (words.flatMap Bytes.word ++ rest) i = .ok w := by
  suffices hread : Bytes.word? ((words.flatMap Bytes.word ++ rest).drop (4 * i)) = some w by
    rw [wordAt, hread]
  induction words generalizing i with
  | nil => cases h
  | cons v vs ih =>
    rw [List.flatMap_cons, List.append_assoc]
    cases i with
    | zero =>
      cases h
      exact Bytes.word?_word_append _ _
    | succ i =>
      have hdrop : (Bytes.word v ++ (vs.flatMap Bytes.word ++ rest)).drop (4 * (i + 1)) =
          (vs.flatMap Bytes.word ++ rest).drop (4 * i) := by
        rw [Nat.mul_succ, Nat.add_comm, ← List.drop_drop]
        exact congrArg (List.drop (4 * i)) (List.drop_left' (Bytes.length_word v))
      rw [hdrop]
      exact ih h

theorem read_encode_append {header : Header} (hmagic : header.magic = Blob.magic)
    (hversion : supports header.version header.lastCompatible = true) (rest : Bytes) :
    read (header.encode ++ rest) = .ok header := by
  have hword {i : Nat} {w : UInt32} (h : header.fields[i]? = some w) :
      wordAt (header.encode ++ rest) i = .ok w := wordAt_flatMap _ _ h
  unfold read
  rw [hword (i := 0) rfl, hword (i := 1) rfl, hword (i := 2) rfl, hword (i := 3) rfl,
    hword (i := 4) rfl, hword (i := 5) rfl, hword (i := 6) rfl, hword (i := 7) rfl,
    hword (i := 8) rfl, hword (i := 9) rfl]
  simp only [bind, Except.bind, hmagic, hversion, if_true]
  rw [← hmagic]
  rfl

/-- Words that are read one after the other stand at the front of the buffer. -/
theorem flatMap_isPrefix {buffer : Bytes} {words : List UInt32}
    (h : ∀ i w, words[i]? = some w → wordAt buffer i = .ok w) :
    words.flatMap Bytes.word <+: buffer := by
  induction words generalizing buffer with
  | nil => exact List.nil_prefix
  | cons w ws ih =>
    have hfirst : buffer = Bytes.word w ++ buffer.drop 4 :=
      Bytes.eq_word_append_of_word? (wordAt_eq_ok_iff.1 (h 0 w rfl))
    have hrest : ws.flatMap Bytes.word <+: buffer.drop 4 := by
      apply ih
      intro i v hv
      have hat := wordAt_eq_ok_iff.1 (h (i + 1) v hv)
      rw [wordAt_eq_ok_iff, List.drop_drop, ← hat]
      congr 2
      omega
    obtain ⟨rest, hrest⟩ := hrest
    refine ⟨rest, ?_⟩
    rw [List.flatMap_cons, List.append_assoc, hrest]
    exact hfirst.symm

/-- A header is only read from a buffer that starts with its forty bytes. -/
theorem isPrefix_of_read {buffer : Bytes} {header : Header} (h : read buffer = .ok header) :
    header.encode <+: buffer ∧ header.magic = Blob.magic ∧
      supports header.version header.lastCompatible = true := by
  unfold read at h
  obtain ⟨magic, h₀, h⟩ := exists_of_bind_eq_ok h
  by_cases hmagic : magic = Blob.magic
  swap
  · rw [if_neg hmagic] at h
    cases h
  rw [if_pos hmagic] at h
  obtain ⟨totalSize, h₁, h⟩ := exists_of_bind_eq_ok h
  obtain ⟨structOffset, h₂, h⟩ := exists_of_bind_eq_ok h
  obtain ⟨stringsOffset, h₃, h⟩ := exists_of_bind_eq_ok h
  obtain ⟨reservationsOffset, h₄, h⟩ := exists_of_bind_eq_ok h
  obtain ⟨version, h₅, h⟩ := exists_of_bind_eq_ok h
  obtain ⟨lastCompatible, h₆, h⟩ := exists_of_bind_eq_ok h
  by_cases hversion : supports version lastCompatible = true
  swap
  · rw [if_neg hversion] at h
    cases h
  rw [if_pos hversion] at h
  obtain ⟨bootCpu, h₇, h⟩ := exists_of_bind_eq_ok h
  obtain ⟨stringsSize, h₈, h⟩ := exists_of_bind_eq_ok h
  obtain ⟨structSize, h₉, h⟩ := exists_of_bind_eq_ok h
  cases h
  refine ⟨flatMap_isPrefix ?_, hmagic, hversion⟩
  intro i w hw
  match i with
  | 0 => cases hw; exact h₀
  | 1 => cases hw; exact h₁
  | 2 => cases hw; exact h₂
  | 3 => cases hw; exact h₃
  | 4 => cases hw; exact h₄
  | 5 => cases hw; exact h₅
  | 6 => cases hw; exact h₆
  | 7 => cases hw; exact h₇
  | 8 => cases hw; exact h₈
  | 9 => cases hw; exact h₉
  | i + 10 => cases hw

end Header

namespace Reservation

theorem eq_encode_append_of_read? {buffer : Bytes} {r : Reservation} (h : read? buffer = some r) :
    buffer = r.encode ++ buffer.drop entrySize := by
  simp only [read?, Option.bind_eq_bind, Option.pure_def, Option.bind_eq_some_iff,
    Option.some.injEq] at h
  obtain ⟨address, haddress, size, hsize, rfl⟩ := h
  have hrest := Bytes.eq_doubleWord_append_of_doubleWord? hsize
  rw [List.drop_drop] at hrest
  rw [encode, List.append_assoc, entrySize, ← hrest,
    ← Bytes.eq_doubleWord_append_of_doubleWord? haddress]

theorem encodeBlock_cons (r : Reservation) (rs : List Reservation) :
    encodeBlock (r :: rs) = r.encode ++ encodeBlock rs := by
  rw [encodeBlock, List.flatMap_cons, List.append_assoc]; rfl

/-- The entries in front of the terminator are those whose block stands at the front. -/
theorem entries?_eq_some_iff {buffer : Bytes} {entries : List Reservation} :
    entries? buffer = some entries ↔
      terminator ∉ entries ∧ encodeBlock entries <+: buffer := by
  constructor
  · intro h
    fun_induction entries? buffer generalizing entries with
    | case1 => cases h
    | case2 buffer hread =>
      cases h
      exact ⟨List.not_mem_nil, _, (eq_encode_append_of_read? hread).symm⟩
    | case3 buffer r hread hne ih =>
      obtain ⟨rs, hrs, rfl⟩ := Option.map_eq_some_iff.1 h
      obtain ⟨hmem, rest, hrest⟩ := ih hrs
      refine ⟨?_, rest, ?_⟩
      · rw [List.mem_cons, not_or]
        refine ⟨?_, hmem⟩
        intro heq
        exact hne heq.symm
      · rw [encodeBlock_cons, List.append_assoc, hrest, ← eq_encode_append_of_read? hread]
  · rintro ⟨hmem, rest, rfl⟩
    exact entries?_encodeBlock hmem rest

theorem take_of_readBlock {buffer : Bytes} {entries : List Reservation}
    (h : readBlock buffer = .ok entries) :
    terminator ∉ entries ∧
      buffer.take (entrySize * (entries.length + 1)) = encodeBlock entries := by
  unfold readBlock at h
  split at h
  · cases h
  · split at h
    · cases h
    · rename_i hread
      cases h
      obtain ⟨hmem, rest, rfl⟩ := entries?_eq_some_iff.1 hread
      exact ⟨hmem, List.take_left' (length_encodeBlock _)⟩

/-- A reader stops at the first entry that is all zero, also if the block goes on behind it. -/
theorem encodeBlock_takeWhile_isPrefix (entries : List Reservation) (rest : Bytes) :
    encodeBlock (entries.takeWhile (· ≠ terminator)) <+: encodeBlock entries ++ rest := by
  induction entries with
  | nil => exact List.prefix_append _ _
  | cons r rs ih =>
    rw [encodeBlock_cons, List.append_assoc]
    by_cases hr : r = terminator
    · rw [List.takeWhile_cons_of_neg (by simpa using hr), hr]
      exact List.prefix_append _ _
    · rw [List.takeWhile_cons_of_pos (by simpa using hr), encodeBlock_cons]
      exact (List.prefix_append_right_inj _).2 ih

theorem terminator_notMem_takeWhile (entries : List Reservation) :
    terminator ∉ entries.takeWhile (· ≠ terminator) := by
  intro hmem
  simpa using List.mem_takeWhile_imp hmem

theorem entries?_encodeBlock_append (entries : List Reservation) (rest : Bytes) :
    entries? (encodeBlock entries ++ rest) = some (entries.takeWhile (· ≠ terminator)) :=
  entries?_eq_some_iff.2
    ⟨terminator_notMem_takeWhile entries, encodeBlock_takeWhile_isPrefix entries rest⟩

theorem readBlock_encodeBlock_append (entries : List Reservation) (rest : Bytes) :
    readBlock (encodeBlock entries ++ rest) = .ok (entries.takeWhile (· ≠ terminator)) := by
  have hlength : ¬ (encodeBlock entries ++ rest).length < entrySize := by
    rw [List.length_append, length_encodeBlock, Nat.mul_succ]
    omega
  rw [readBlock, if_neg hlength, entries?_encodeBlock_append]

end Reservation

end Blob

end BootTree
