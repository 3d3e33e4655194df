import BootTree.Blob.Strings
import BootTree.Proofs.Blob.Tokens

/-!
# BootTree.Proofs.Blob.Strings

Names in the strings block. A name is read at an offset exactly if its bytes and a zero byte stand
there (`Strings.read_eq_ok_iff`), so names stay readable when more is put behind the block, and
looking a name up finds a place where it can be read.
-/

namespace BootTree

namespace Blob

namespace Strings

theorem read_eq_ok_iff {block name : Bytes} {offset : Nat} :
    read block offset = .ok name ↔ 0 ∉ name ∧ name ++ [0] <+: block.drop offset := by
  constructor
  · intro h
    unfold read at h
    split at h
    · cases h
    · dsimp only at h
      split at h
      · rename_i hzero
        cases h
        exact ⟨Token.not_mem_takeWhile _, Token.takeWhile_zero_isPrefix_of_mem hzero⟩
      · cases h
  · rintro ⟨hname, rest, hrest⟩
    have hlen : offset ≤ block.length := by
      have := congrArg List.length hrest
      simp only [List.length_append, List.length_drop, List.length_singleton] at this
      omega
    have hsplit : block.drop offset = name ++ 0 :: rest := by rw [← hrest]; simp
    have hzero : 0 ∈ block.drop offset := by rw [hsplit]; simp
    rw [read, if_neg (by omega)]
    dsimp only
    rw [if_pos hzero, hsplit, Token.takeWhile_ne_zero hname]

/-- What is put behind the block hides no name. -/
theorem read_append_block {block name : Bytes} {offset : Nat} (h : read block offset = .ok name)
    (behind : Bytes) : read (block ++ behind) offset = .ok name := by
  obtain ⟨hname, hprefix⟩ := read_eq_ok_iff.1 h
  refine read_eq_ok_iff.2 ⟨hname, hprefix.trans ?_⟩
  have hlen := hprefix.length_le
  simp only [List.length_append, List.length_singleton, List.length_drop] at hlen
  rw [List.drop_append_of_le_length (by omega)]
  exact List.prefix_append _ _

/-- A new name is read where the old block ended. -/
theorem read_append_self {name : Bytes} (block : Bytes) (hname : 0 ∉ name) :
    read (append block name) block.length = .ok name := by
  have hdrop : (append block name).drop block.length = name ++ [0] := by
    rw [append, List.append_assoc, List.drop_left]
  exact read_eq_ok_iff.2 ⟨hname, hdrop ▸ List.prefix_refl _⟩

theorem find?_bound {block name : Bytes} {offset : Nat} (h : find? block name = some offset) :
    offset + name.length < block.length ∧ name ++ [0] <+: block.drop offset := by
  induction block generalizing offset with
  | nil => simp [find?] at h
  | cons b rest ih =>
    rw [find?] at h
    split at h
    · rename_i hprefix
      cases h
      have hprefix := List.isPrefixOf_iff_prefix.1 hprefix
      have := hprefix.length_le
      simp only [List.length_append, List.length_cons] at this
      exact ⟨by simp only [List.length_cons]; omega, by simpa using hprefix⟩
    · obtain ⟨o, ho, rfl⟩ := Option.map_eq_some_iff.1 h
      obtain ⟨hlt, hprefix⟩ := ih ho
      exact ⟨by simp only [List.length_cons]; omega, by simpa using hprefix⟩

theorem read_of_find? {block name : Bytes} {offset : Nat} (h : find? block name = some offset)
    (hname : 0 ∉ name) : read block offset = .ok name :=
  read_eq_ok_iff.2 ⟨hname, (find?_bound h).2⟩

theorem find?_le {block name : Bytes} {k : Nat} (h : name ++ [0] <+: block.drop k) :
    ∃ offset, find? block name = some offset ∧ offset ≤ k := by
  induction block generalizing k with
  | nil =>
    have := h.length_le
    simp at this
  | cons b rest ih =>
    rw [find?]
    by_cases hhere : (name ++ [0]).isPrefixOf (b :: rest) = true
    · exact ⟨0, if_pos hhere, Nat.zero_le _⟩
    · cases k with
      | zero => exact absurd (List.isPrefixOf_iff_prefix.2 h) hhere
      | succ k =>
        obtain ⟨offset, hoffset, hle⟩ := ih h
        rw [if_neg hhere, hoffset]
        exact ⟨offset + 1, rfl, Nat.succ_le_succ hle⟩

theorem find?_of_read {block name : Bytes} {offset : Nat} (h : read block offset = .ok name) :
    (find? block name).isSome = true := by
  obtain ⟨found, hfound, -⟩ := find?_le (read_eq_ok_iff.1 h).2
  rw [hfound]
  rfl

theorem find?_eq_some_iff {block name : Bytes} {offset : Nat} (hname : 0 ∉ name) :
    find? block name = some offset ↔
      read block offset = .ok name ∧ ∀ earlier < offset, read block earlier ≠ .ok name := by
  constructor
  · intro h
    refine ⟨read_of_find? h hname, ?_⟩
    intro earlier hlt hread
    obtain ⟨found, hfound, hle⟩ := find?_le (read_eq_ok_iff.1 hread).2
    rw [h] at hfound
    cases hfound
    omega
  · rintro ⟨hread, hearlier⟩
    obtain ⟨found, hfound, hle⟩ := find?_le (read_eq_ok_iff.1 hread).2
    rcases Nat.lt_or_eq_of_le hle with hlt | rfl
    · exact absurd (read_of_find? hfound hname) (hearlier found hlt)
    · exact hfound

theorem find?_eq_none_iff {block name : Bytes} (hname : 0 ∉ name) :
    find? block name = none ↔ ∀ offset, read block offset ≠ .ok name := by
  constructor
  · intro h offset hread
    have := find?_of_read hread
    rw [h] at this
    cases this
  · intro h
    cases hfind : find? block name with
    | none => rfl
    | some offset => exact absurd (read_of_find? hfind hname) (h offset)

/-- A name can be read in the middle of a longer one that it is the end of. -/
theorem read_tail {block front name : Bytes} {offset : Nat}
    (h : read block offset = .ok (front ++ name)) :
    read block (offset + front.length) = .ok name := by
  obtain ⟨hname, rest, hrest⟩ := read_eq_ok_iff.1 h
  refine read_eq_ok_iff.2 ⟨fun hmem => hname (List.mem_append_right _ hmem), rest, ?_⟩
  rw [← List.drop_drop, ← hrest]
  simp only [List.append_assoc, List.drop_left]

end Strings

end Blob

end BootTree
