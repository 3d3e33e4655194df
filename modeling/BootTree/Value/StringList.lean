import BootTree.Text
import BootTree.Value.Error

/-!
# BootTree.Value.StringList

Property values that are lists of zero-terminated strings.

* `split` — the terminated entries of a value and the unterminated bytes behind the last of them;
  `join_split` puts them together again. `split_append` cuts off the first entry.
* `pieces` — the same with terminators, which is how entries are copied.
* `next` — one step of reading such a list, which gets past an entry that is not UTF-8
  (`next_append`, `append_of_next`).
* `texts` — the strings up to the first entry that cannot be read.
* `count` — the number of entries, for values whose last entry is terminated.
* `text` — the string of a value that holds exactly one (`text_eq_ok_iff`).
-/

namespace BootTree

namespace StringList

/-- The terminated entries, without their terminators, and the unterminated tail. -/
def split : Bytes → List Bytes × Bytes
  | [] => ([], [])
  | b :: rest =>
    let (entries, tail) := split rest
    if b = 0 then ([] :: entries, tail)
    else
      match entries with
      | [] => ([], b :: tail)
      | entry :: others => ((b :: entry) :: others, tail)

def join (entries : List Bytes) : Bytes := entries.flatMap (· ++ [0])

theorem join_split (value : Bytes) : join (split value).1 ++ (split value).2 = value := by
  induction value with
  | nil => rfl
  | cons b rest ih =>
    simp only [split]
    split
    · rename_i h
      subst h
      simpa [join] using ih
    · split
      · rename_i h; rw [h] at ih; simpa [join] using ih
      · rename_i entry others h; rw [h] at ih; simpa [join] using ih

theorem split_entry_no_zero {value entry : Bytes} (h : entry ∈ (split value).1) : 0 ∉ entry := by
  induction value generalizing entry with
  | nil => simp [split] at h
  | cons b rest ih =>
    simp only [split] at h
    split at h
    · rcases List.mem_cons.1 h with rfl | h
      · simp
      · exact ih h
    · rename_i hb
      split at h
      · simp at h
      · rename_i first others hsplit
        rcases List.mem_cons.1 h with rfl | h
        · simp only [List.mem_cons, not_or]
          exact ⟨fun h => hb h.symm, ih (by simp [hsplit])⟩
        · exact ih (by simp [hsplit, h])

theorem split_append {entry : Bytes} (h : 0 ∉ entry) (rest : Bytes) :
    split (entry ++ 0 :: rest) = (entry :: (split rest).1, (split rest).2) := by
  induction entry with
  | nil => rfl
  | cons b entry ih =>
    rw [List.mem_cons, not_or] at h
    rw [List.cons_append, split, ih h.2]
    dsimp only
    rw [if_neg (fun hb => h.1 hb.symm)]

theorem split_of_not_mem {value : Bytes} (h : 0 ∉ value) : split value = ([], value) := by
  induction value with
  | nil => rfl
  | cons b value ih =>
    rw [List.mem_cons, not_or] at h
    rw [split, ih h.2]
    dsimp only
    rw [if_neg (fun hb => h.1 hb.symm)]

/-- The entries with their terminators; a tail without one is an entry of its own. -/
def pieces (value : Bytes) : List Bytes :=
  let (entries, tail) := split value
  entries.map (· ++ [0]) ++ if tail = [] then [] else [tail]

@[simp] theorem flatten_pieces (value : Bytes) : (pieces value).flatten = value := by
  have h := join_split value
  simp only [pieces, List.flatten_append]
  rw [show (List.map (· ++ [0]) (split value).1).flatten = join (split value).1 from
    (List.flatMap_def ..).symm]
  split <;> simp_all

/-- Read the entry at the front. What is left to read is the rest behind the entry, also when the
entry is not UTF-8; nothing is consumed when no terminator is left. -/
def next (value : Bytes) : Except ValueError Bytes × Bytes :=
  match split value with
  | ([], _) => (.error .unterminated, value)
  | (entry :: _, _) =>
    (if Bytes.isText entry then .ok entry else .error .notText, value.drop (entry.length + 1))

theorem next_append {entry : Bytes} (h : 0 ∉ entry) (rest : Bytes) :
    next (entry ++ 0 :: rest) =
      (if Bytes.isText entry then .ok entry else .error .notText, rest) := by
  have hdrop : (entry ++ 0 :: rest).drop (entry.length + 1) = rest := by
    rw [List.append_cons, List.drop_left' (by simp)]
  rw [next, split_append h]
  dsimp only
  rw [hdrop]

theorem next_of_not_mem {value : Bytes} (h : 0 ∉ value) :
    next value = (.error .unterminated, value) := by
  rw [next, split_of_not_mem h]

theorem append_of_next {value rest : Bytes} {entry : Except ValueError Bytes}
    (h : next value = (entry, rest)) :
    (0 ∉ value ∧ entry = .error .unterminated) ∨ ∃ front, 0 ∉ front ∧ value = front ++ 0 :: rest ∧
      entry = if Bytes.isText front then .ok front else .error .notText := by
  by_cases hmem : 0 ∈ value
  · obtain ⟨front, behind, rfl, hfront⟩ := List.eq_append_cons_of_mem hmem
    rw [next_append hfront] at h
    cases h
    exact Or.inr ⟨front, hfront, rfl, rfl⟩
  · rw [next_of_not_mem hmem] at h
    cases h
    exact Or.inl ⟨hmem, rfl⟩

def texts (value : Bytes) : List Bytes := (split value).1.takeWhile Bytes.isText

def count (value : Bytes) : Except ValueError Nat :=
  if (split value).2 = [] then .ok (split value).1.length else .error .unterminated

theorem count_append {entry : Bytes} (h : 0 ∉ entry) (rest : Bytes) :
    count (entry ++ 0 :: rest) = (count rest).map (· + 1) := by
  rw [count, count, split_append h]
  dsimp only
  split <;> rfl

theorem count_of_not_mem {value : Bytes} (h : 0 ∉ value) :
    count value = if value = [] then .ok 0 else .error .unterminated := by
  rw [count, split_of_not_mem h]
  rfl

def text (value : Bytes) : Except ValueError Bytes :=
  match split value with
  | ([entry], []) => if Bytes.isText entry then .ok entry else .error .notText
  | _ => .error .unterminated

theorem text_eq_ok_iff {value entry : Bytes} :
    text value = .ok entry ↔ value = entry ++ [0] ∧ 0 ∉ entry ∧ Bytes.isText entry = true := by
  constructor
  · intro h
    unfold text at h
    split at h
    · rename_i found hsplit
      have hmem : found ∈ (split value).1 := by simp [hsplit]
      have hjoin := join_split value
      rw [hsplit, join, List.flatMap_singleton, List.append_nil] at hjoin
      split at h
      · rename_i htext
        cases h
        exact ⟨hjoin.symm, split_entry_no_zero hmem, htext⟩
      · cases h
    · cases h
  · rintro ⟨rfl, hzero, htext⟩
    rw [text, split_append hzero]
    exact if_pos htext

end StringList

end BootTree
