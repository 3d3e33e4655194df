import BootTree.Proofs.Blob.Blocks

/-!
# BootTree.Proofs.Blob.Header

Reading a header, for buffers of any bytes. A buffer with a supported header is read into the one
header whose forty bytes are its first ones. Any other buffer is refused for one reason, and what
comes first in the buffer decides: a magic word that is not there, one that is another word, a
version that is not there, versions that are not supported, or the end of the buffer.

* `Header.Refused`: the buffers that are refused, each with its reason.
* `Header.read_of_refused`: reading gives that reason.
* `Header.exists_refused_or_encode`: every other buffer starts with a supported header.
* `Header.read_iff`: what reading answers, for every buffer.
-/

namespace BootTree

namespace Blob

namespace Header

/-- The buffers that hold no header that can be read, and why. -/
inductive Refused : Bytes → HeaderError → Prop where
  | cutMagic {buffer : Bytes} : buffer.length < 4 → Refused buffer .tooShort
  | otherMagic {buffer : Bytes} : 4 ≤ buffer.length → buffer.take 4 ≠ Bytes.word Blob.magic →
      Refused buffer .badMagic
  | cutVersions {buffer : Bytes} : buffer.take 4 = Bytes.word Blob.magic → buffer.length < 28 →
      Refused buffer .tooShort
  /-- Both versions are there, behind the magic word and four others. -/
  | otherVersions {buffer : Bytes} {version lastCompatible : UInt32} :
      buffer.take 4 = Bytes.word Blob.magic →
      (buffer.drop 20).take 8 = Bytes.word version ++ Bytes.word lastCompatible →
      ¬ (17 ≤ version ∧ lastCompatible ≤ 17) →
      Refused buffer (.unsupportedVersion version lastCompatible)
  | cutFields {buffer : Bytes} {version lastCompatible : UInt32} :
      buffer.take 4 = Bytes.word Blob.magic →
      (buffer.drop 20).take 8 = Bytes.word version ++ Bytes.word lastCompatible →
      17 ≤ version ∧ lastCompatible ≤ 17 → buffer.length < 40 → Refused buffer .tooShort

theorem supports_iff {version lastCompatible : UInt32} :
    supports version lastCompatible = true ↔ 17 ≤ version ∧ lastCompatible ≤ 17 := by
  rw [supports, Bool.and_eq_true, decide_eq_true_iff, decide_eq_true_iff]
  rfl

/-! ## Words -/

variable {α : Type} {buffer : Bytes} {i : Nat} {w : UInt32}

theorem wordAt_of_lt (h : buffer.length < 4 * i + 4) : wordAt buffer i = .error .tooShort := by
  have hnone : Bytes.word? (buffer.drop (4 * i)) = none := by
    rw [Bytes.word?_eq_none_iff, List.length_drop]
    omega
  rw [wordAt, hnone]

theorem exists_wordAt (buffer : Bytes) (i : Nat) (h : 4 * i + 4 ≤ buffer.length) :
    ∃ w, wordAt buffer i = .ok w := by
  have hsome : (Bytes.word? (buffer.drop (4 * i))).isSome := by
    rw [Bytes.word?_isSome_iff, List.length_drop]
    omega
  obtain ⟨w, hw⟩ := Option.isSome_iff_exists.1 hsome
  exact ⟨w, wordAt_eq_ok_iff.2 hw⟩

theorem wordAt_eq_ok_iff_take : wordAt buffer i = .ok w ↔
    (buffer.drop (4 * i)).take 4 = Bytes.word w := by
  rw [wordAt_eq_ok_iff]
  constructor
  · intro h
    rw [Bytes.eq_word_append_of_word? h]
    exact List.take_left' (Bytes.length_word w)
  · intro h
    rw [← List.take_append_drop 4 (buffer.drop (4 * i)), h]
    exact Bytes.word?_word_append w _

/-- Two words that stand one behind the other. -/
theorem wordAt_pair {v : UInt32}
    (h : (buffer.drop (4 * i)).take 8 = Bytes.word v ++ Bytes.word w) :
    wordAt buffer i = .ok v ∧ wordAt buffer (i + 1) = .ok w := by
  have hfront : buffer.drop (4 * i) = Bytes.word v ++ (Bytes.word w ++ buffer.drop (4 * i + 8)) := by
    have hall := List.take_append_drop 8 (buffer.drop (4 * i))
    rw [h, List.drop_drop, List.append_assoc] at hall
    exact hall.symm
  constructor
  · rw [wordAt_eq_ok_iff_take, hfront]
    exact List.take_left' (Bytes.length_word v)
  · rw [wordAt_eq_ok_iff_take, Nat.mul_succ, ← List.drop_drop, hfront,
      List.drop_left' (Bytes.length_word v)]
    exact List.take_left' (Bytes.length_word w)

theorem take_pair {v : UInt32} (hv : wordAt buffer i = .ok v)
    (hw : wordAt buffer (i + 1) = .ok w) :
    (buffer.drop (4 * i)).take 8 = Bytes.word v ++ Bytes.word w := by
  rw [wordAt_eq_ok_iff_take] at hv hw
  rw [show (8 : Nat) = 4 + 4 from rfl, List.take_add, hv, List.drop_drop]
  exact congrArg (Bytes.word v ++ ·) hw

/-- A step that reads a word fails as too short if what follows fails so whatever the word is. -/
theorem bind_tooShort {f : UInt32 → Except HeaderError α}
    (h : ∀ w, wordAt buffer i = .ok w → f w = .error .tooShort) :
    (wordAt buffer i >>= f) = .error .tooShort := by
  cases hword : wordAt buffer i with
  | ok w => exact h w hword
  | error e =>
    unfold wordAt at hword
    split at hword <;> cases hword
    rfl

/-! ## Buffers that are refused -/

theorem magic_of_take (h : buffer.take 4 = Bytes.word Blob.magic) :
    wordAt buffer 0 = .ok Blob.magic := by
  rw [wordAt_eq_ok_iff_take]
  exact h

/-- The last of the words in front of the versions' judgement is not there. -/
theorem read_of_cutVersions (hmagic : buffer.take 4 = Bytes.word Blob.magic)
    (hlength : buffer.length < 28) : read buffer = .error .tooShort := by
  have hlast : wordAt buffer 6 = .error .tooShort := wordAt_of_lt (by omega)
  unfold read
  rw [magic_of_take hmagic]
  refine bind_tooShort fun _ _ => bind_tooShort fun _ _ => bind_tooShort fun _ _ =>
    bind_tooShort fun _ _ => bind_tooShort fun _ _ => bind_tooShort fun w hw => ?_
  rw [hlast] at hw
  cases hw

theorem length_le_of_take {bytes : Bytes} {k n : Nat} (h : (buffer.drop k).take n = bytes)
    (hlength : bytes.length = n) (hn : 0 < n) : k + n ≤ buffer.length := by
  have := congrArg List.length h
  rw [List.length_take, List.length_drop] at this
  omega

/-- With both versions there, so are the words in front of them, and the versions are judged. -/
theorem read_of_versions {version lastCompatible : UInt32}
    (hmagic : buffer.take 4 = Bytes.word Blob.magic)
    (hversions : (buffer.drop 20).take 8 = Bytes.word version ++ Bytes.word lastCompatible) :
    (supports version lastCompatible = false →
      read buffer = .error (.unsupportedVersion version lastCompatible)) ∧
    (supports version lastCompatible = true → buffer.length < 40 →
      read buffer = .error .tooShort) := by
  have hlength : 20 + 8 ≤ buffer.length := length_le_of_take hversions rfl (by omega)
  obtain ⟨w₁, h₁⟩ := exists_wordAt buffer 1 (by omega)
  obtain ⟨w₂, h₂⟩ := exists_wordAt buffer 2 (by omega)
  obtain ⟨w₃, h₃⟩ := exists_wordAt buffer 3 (by omega)
  obtain ⟨w₄, h₄⟩ := exists_wordAt buffer 4 (by omega)
  obtain ⟨h₅, h₆⟩ := wordAt_pair (i := 5) hversions
  unfold read
  rw [magic_of_take hmagic, h₁, h₂, h₃, h₄, h₅, h₆]
  constructor
  · intro hother
    simp only [bind, Except.bind, if_true, hother]
    rfl
  · intro hsupported hshort
    have hlast : wordAt buffer 9 = .error .tooShort := wordAt_of_lt (by omega)
    simp only [bind, Except.bind, if_true, hsupported]
    refine bind_tooShort fun _ _ => bind_tooShort fun _ _ => bind_tooShort fun w hw => ?_
    rw [hlast] at hw
    cases hw

theorem read_of_refused {e : HeaderError} (h : Refused buffer e) : read buffer = .error e := by
  cases h with
  | cutMagic hlength =>
    unfold read
    rw [wordAt_of_lt (by omega)]
    rfl
  | otherMagic hlength hmagic =>
    obtain ⟨w, hw⟩ := exists_wordAt buffer 0 (by omega)
    have hne : w ≠ Blob.magic := by
      rintro rfl
      exact hmagic (wordAt_eq_ok_iff_take.1 hw)
    unfold read
    rw [hw]
    simp only [bind, Except.bind, if_neg hne]
    rfl
  | cutVersions hmagic hlength => exact read_of_cutVersions hmagic hlength
  | otherVersions hmagic hversions hother =>
    rw [← supports_iff, Bool.not_eq_true] at hother
    exact (read_of_versions hmagic hversions).1 hother
  | cutFields hmagic hversions hsupported hlength =>
    exact (read_of_versions hmagic hversions).2 (supports_iff.2 hsupported) hlength

/-! ## Buffers with a header -/

/-- Any forty bytes are those of a header. -/
theorem exists_encode (h : headerSize ≤ buffer.length) :
    ∃ header : Header, buffer.take headerSize = header.encode := by
  have hwords : ∀ i : Fin 10, ∃ w, wordAt buffer i = .ok w := by
    intro i
    exact exists_wordAt buffer i (by unfold headerSize at h; omega)
  choose f hf using hwords
  let header : Header := ⟨f 0, f 1, f 2, f 3, f 4, f 5, f 6, f 7, f 8, f 9⟩
  have hfields : header.fields = List.ofFn f := by simp [fields, header, List.ofFn_succ]
  have hfirst : header.encode <+: buffer := by
    refine flatMap_isPrefix ?_
    intro i w hw
    rw [hfields, List.getElem?_ofFn] at hw
    split at hw
    · rename_i hi
      cases hw
      exact hf ⟨i, hi⟩
    · cases hw
  refine ⟨header, ?_⟩
  rw [List.prefix_iff_eq_take.1 hfirst, length_encode]

/-- A buffer that is not refused starts with a header of supported versions. -/
theorem exists_refused_or_encode (buffer : Bytes) :
    (∃ e, Refused buffer e) ∨ ∃ header : Header, buffer.take headerSize = header.encode ∧
      header.magic = Blob.magic ∧ 17 ≤ header.version ∧ header.lastCompatible ≤ 17 := by
  by_cases hcut : buffer.length < 4
  · exact .inl ⟨_, .cutMagic hcut⟩
  by_cases hmagic : buffer.take 4 = Bytes.word Blob.magic
  swap
  · exact .inl ⟨_, .otherMagic (by omega) hmagic⟩
  by_cases hlength : buffer.length < 28
  · exact .inl ⟨_, .cutVersions hmagic hlength⟩
  obtain ⟨version, h₅⟩ := exists_wordAt buffer 5 (by omega)
  obtain ⟨lastCompatible, h₆⟩ := exists_wordAt buffer 6 (by omega)
  have hversions := take_pair h₅ h₆
  by_cases hsupported : 17 ≤ version ∧ lastCompatible ≤ 17
  swap
  · exact .inl ⟨_, .otherVersions hmagic hversions hsupported⟩
  by_cases hshort : buffer.length < headerSize
  · exact .inl ⟨_, .cutFields hmagic hversions hsupported hshort⟩
  -- All ten words are there, and three of them have been judged.
  obtain ⟨header, hheader⟩ := exists_encode (Nat.not_lt.1 hshort)
  have hword {i : Nat} {v w : UInt32} (hv : wordAt buffer i = .ok v)
      (hw : header.fields[i]? = some w) : w = v := by
    rw [← List.take_append_drop headerSize buffer, hheader, encode, wordAt_flatMap _ _ hw] at hv
    exact Except.ok.inj hv
  refine .inr ⟨header, hheader, hword (magic_of_take hmagic) rfl, ?_⟩
  rw [hword h₅ rfl, hword h₆ rfl]
  exact hsupported

/-- **What reading a header answers.** A header that is written is read back exactly if its magic
word and its versions are the supported ones; what is read is what the first forty bytes of the
buffer were written from; and what is refused is refused for the first reason that there is. -/
theorem read_iff (buffer rest : Bytes) (header : Header) (e : HeaderError) :
    (read (header.encode ++ rest) = .ok header ↔
      header.magic = Blob.magic ∧ 17 ≤ header.version ∧ header.lastCompatible ≤ 17) ∧
    (read buffer = .ok header ↔ buffer.take headerSize = header.encode ∧
      header.magic = Blob.magic ∧ 17 ≤ header.version ∧ header.lastCompatible ≤ 17) ∧
    (read buffer = .error e ↔ Refused buffer e) := by
  have hread (buffer : Bytes) : read buffer = .ok header ↔
      buffer.take headerSize = header.encode ∧
        header.magic = Blob.magic ∧ 17 ≤ header.version ∧ header.lastCompatible ≤ 17 := by
    constructor
    · intro h
      obtain ⟨hfirst, hmagic, hversion⟩ := isPrefix_of_read h
      refine ⟨?_, hmagic, supports_iff.1 hversion⟩
      rw [List.prefix_iff_eq_take.1 hfirst, length_encode]
    · rintro ⟨hfront, hmagic, hversion⟩
      rw [← List.take_append_drop headerSize buffer, hfront]
      exact read_encode_append hmagic (supports_iff.2 hversion) _
  refine ⟨?_, hread buffer, ?_, read_of_refused⟩
  · rw [hread, and_iff_right (List.take_left' (length_encode header))]
  · intro h
    rcases exists_refused_or_encode buffer with ⟨e', he'⟩ | ⟨header', hfront, hmagic, hversion⟩
    · rw [read_of_refused he', Except.error.injEq] at h
      exact h ▸ he'
    · rw [← List.take_append_drop headerSize buffer, hfront,
        read_encode_append hmagic (supports_iff.2 hversion)] at h
      cases h

/-- The magic word alone is too short; with a wrong byte it is judged. -/
example : read [0xd0, 0x0d, 0xfe, 0xed] = .error .tooShort ∧
    read [0xd0, 0x0d, 0xfe, 0xee] = .error .badMagic := by decide

end Header

end Blob

end BootTree
