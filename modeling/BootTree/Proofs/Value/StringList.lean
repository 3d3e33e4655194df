import BootTree.Proofs.Edma.Compaction

/-!
# BootTree.Proofs.Value.StringList

Reading a list of strings, and reading it after some of its entries were dropped. What drops entries
and what reads them cut the list each for itself; both cut it behind every zero byte, whatever the
bytes are, so that the answers of reading are dropped with the entries.

* `StringList.answerAt`: the answers of reading again and again.
* `StringList.CountsFrom`: the loop that counts entries; `StringList.countsFrom_iff` says where it
  ends.
* `compactStrings_append`: what dropping does to the first entry.
* `StringList.reads_compactStrings`: reading and counting what is left.
-/

namespace BootTree

namespace RemovalSet

variable (set : RemovalSet)

theorem remaining_succ (count : Nat) : set.remaining (count + 1) =
    (if set.contains 0 then [] else [0]) ++ ((set.rebased 1).remaining count).map (· + 1) := by
  rw [← survivors_range, List.range_succ_eq_map, survivors_cons_eq, survivors_map, survivors_range]

theorem length_remaining (count : Nat) :
    (set.remaining count).length = count - (List.range count).countP set.contains := by
  have hall := List.length_eq_countP_add_countP set.contains (l := List.range count)
  rw [List.length_range] at hall
  rw [remaining, ← List.countP_eq_length_filter]
  simp only [Bool.not_eq_true, Bool.decide_eq_false] at hall
  omega

end RemovalSet

/-! ## Dropping entries -/

section Dropping

variable {entry list : Bytes} (set : RemovalSet)

theorem compactStrings_append (h : 0 ∉ entry) (rest : Bytes) :
    compactStrings (entry ++ 0 :: rest) set =
      (if set.contains 0 then [] else entry ++ [0]) ++ compactStrings rest (set.rebased 1) := by
  rw [compactStrings, StringList.pieces_append h, RemovalSet.survivors_cons_eq,
    List.flatten_append]
  cases set.contains 0 <;> simp [compactStrings]

theorem compactStrings_of_not_mem (h : 0 ∉ list) :
    compactStrings list set = if set.contains 0 then [] else list := by
  by_cases hne : list = []
  · subst hne
    cases set.contains 0 <;> rfl
  · rw [compactStrings, StringList.pieces_of_not_mem hne h, RemovalSet.survivors_cons_eq]
    cases set.contains 0 <;> simp [RemovalSet.survivors]

end Dropping

namespace StringList

variable {value : Bytes}

/-! ## Reading -/

/-- What one of many calls answers that read a list entry by entry. A call goes on behind an entry
that is not text; behind the last terminator every call fails. -/
def answerAt (value : Bytes) : Nat → Except ValueError Bytes
  | 0 => (next value).1
  | i + 1 => answerAt (next value).2 i

theorem answerAt_append_zero {entry : Bytes} (h : 0 ∉ entry) (rest : Bytes) :
    answerAt (entry ++ 0 :: rest) 0 = if Bytes.isText entry then .ok entry else .error .notText := by
  rw [answerAt, next_append h]

theorem answerAt_append_succ {entry : Bytes} (h : 0 ∉ entry) (rest : Bytes) (i : Nat) :
    answerAt (entry ++ 0 :: rest) (i + 1) = answerAt rest i := by
  rw [answerAt, next_append h]

theorem answerAt_of_not_mem (h : 0 ∉ value) (i : Nat) :
    answerAt value i = .error .unterminated := by
  induction i with
  | zero => rw [answerAt, next_of_not_mem h]
  | succ i ih => rw [answerAt, next_of_not_mem h, ih]

/-- The answers that are left are those of reading what is left. By induction on the entries: the
first call on what is left answers for the first entry that is left. -/
theorem map_answerAt_remaining (value : Bytes) (set : RemovalSet) (calls : Nat) :
    (set.remaining calls).map (answerAt value) =
      (List.range (set.remaining calls).length).map (answerAt (compactStrings value set)) := by
  induction value using entries_induction generalizing set calls with
  | tail tail hmem =>
    have hleft : 0 ∉ compactStrings tail set := by
      rw [compactStrings_of_not_mem set hmem]
      split
      · exact List.not_mem_nil
      · exact hmem
    rw [funext (answerAt_of_not_mem hmem), funext (answerAt_of_not_mem hleft), List.map_const',
      List.map_const', List.length_range]
  | entry entry rest hentry ih =>
    cases calls with
    | zero => rfl
    | succ calls =>
      have hbehind : answerAt (entry ++ 0 :: rest) ∘ (· + 1) = answerAt rest :=
        funext (answerAt_append_succ hentry rest)
      rw [RemovalSet.remaining_succ, compactStrings_append set hentry, List.map_append,
        List.map_map, hbehind, ih, List.length_append, List.length_map]
      cases set.contains 0 with
      | true => simp
      | false =>
        have hleft := funext (answerAt_append_succ hentry (compactStrings rest (set.rebased 1)))
        simp [List.range_succ_eq_map, answerAt_append_zero hentry, ← hleft, Nat.add_comm 1,
          Function.comp_def]

/-! ## Counting -/

/-- The loop that counts entries. It ends with the list, or at bytes without a terminator; an entry
that is not text counts. -/
inductive CountsFrom : Nat → Bytes → Except ValueError Nat → Prop where
  | done {count : Nat} : CountsFrom count [] (.ok count)
  | text {count : Nat} {value entry rest : Bytes} {outcome : Except ValueError Nat} :
      value ≠ [] → next value = (.ok entry, rest) → CountsFrom (count + 1) rest outcome →
      CountsFrom count value outcome
  | notText {count : Nat} {value rest : Bytes} {outcome : Except ValueError Nat} :
      value ≠ [] → next value = (.error .notText, rest) → CountsFrom (count + 1) rest outcome →
      CountsFrom count value outcome
  | stop {count : Nat} {value rest : Bytes} {e : ValueError} :
      value ≠ [] → next value = (.error e, rest) → e ≠ .notText →
      CountsFrom count value (.error e)

theorem map_count_append {entry : Bytes} (h : 0 ∉ entry) (rest : Bytes) (n : Nat) :
    (count (entry ++ 0 :: rest)).map (n + ·) = (count rest).map (n + 1 + ·) := by
  rw [count_append h]
  cases count rest with
  | error e => rfl
  | ok m => rw [Except.map, Except.map, Except.map, Nat.add_assoc, Nat.add_comm 1]

/-- The loop comes to its end on every list, with the number of its entries or at its tail. -/
theorem countsFrom_count (n : Nat) (value : Bytes) :
    CountsFrom n value ((count value).map (n + ·)) := by
  induction value using entries_induction generalizing n with
  | tail tail hmem =>
    rw [count_of_not_mem hmem]
    split
    · rename_i hnil
      subst hnil
      exact .done
    · rename_i hne
      exact .stop hne (next_of_not_mem hmem) (by decide)
  | entry entry rest hentry ih =>
    have hne : entry ++ 0 :: rest ≠ [] := by simp
    have hnext := next_append hentry rest
    rw [map_count_append hentry]
    split at hnext
    · exact .text hne hnext (ih (n + 1))
    · exact .notText hne hnext (ih (n + 1))

theorem countsFrom_iff {n : Nat} {outcome : Except ValueError Nat} :
    CountsFrom n value outcome ↔ outcome = (count value).map (n + ·) := by
  constructor
  · intro h
    induction h with
    | done => rfl
    | text _ hnext _ ih | notText _ hnext _ ih =>
      rcases append_of_next hnext with ⟨-, herror⟩ | ⟨front, hfront, rfl, -⟩
      · cases herror
      · rw [ih, map_count_append hfront]
    | stop hne hnext hother =>
      rcases append_of_next hnext with ⟨hmem, herror⟩ | ⟨front, -, -, herror⟩
      · cases herror
        rw [count_of_not_mem hmem, if_neg hne]
        rfl
      · split at herror
        · cases herror
        · cases herror
          exact absurd rfl hother
  · rintro rfl
    exact countsFrom_count n value

/-- A list whose last entry is terminated, or that has none. -/
def Terminated (value : Bytes) : Prop := value = [] ∨ value.getLast? = some 0

instance (value : Bytes) : Decidable (Terminated value) :=
  inferInstanceAs (Decidable (_ ∨ _))

theorem terminated_append (entry : Bytes) {rest : Bytes} :
    Terminated (entry ++ 0 :: rest) ↔ Terminated rest := by
  cases rest with
  | nil => simp [Terminated]
  | cons b rest => simp [Terminated, List.getLast?_append, List.getLast?_cons_cons]

theorem terminated_iff_of_not_mem (h : 0 ∉ value) : Terminated value ↔ value = [] := by
  constructor
  · rintro (hnil | hlast)
    · exact hnil
    · exact absurd (List.mem_of_getLast? hlast) h
  · exact Or.inl

theorem exists_count_iff : (∃ n, count value = .ok n) ↔ Terminated value := by
  induction value using entries_induction with
  | tail tail hmem =>
    rw [terminated_iff_of_not_mem hmem, count_of_not_mem hmem]
    split <;> simp_all
  | entry entry rest hentry ih =>
    rw [terminated_append, ← ih, count_append hentry]
    cases count rest <;> simp [Except.map]

/-- Of a terminated list all entries that are left are counted. -/
theorem count_compactStrings {n : Nat} (h : count value = .ok n) (set : RemovalSet) :
    count (compactStrings value set) = .ok (set.remaining n).length := by
  induction value using entries_induction generalizing n set with
  | tail tail hmem =>
    rw [count_of_not_mem hmem] at h
    split at h
    · rename_i hnil
      cases h
      subst hnil
      rfl
    · cases h
  | entry entry rest hentry ih =>
    rw [count_append hentry] at h
    cases hrest : count rest with
    | error e => rw [hrest] at h; cases h
    | ok m =>
      rw [hrest] at h
      cases h
      have hleft := ih hrest (set.rebased 1)
      rw [compactStrings_append set hentry, RemovalSet.remaining_succ, List.length_append,
        List.length_map]
      cases set.contains 0 with
      | true => simpa using hleft
      | false =>
        simp only [Bool.false_eq_true, if_false, List.append_assoc, List.singleton_append]
        rw [count_append hentry, hleft, Except.map, List.length_singleton, Nat.add_comm]

/-- The tail is the entry whose index is the number of terminators. -/
theorem count_compactStrings_of_tail (h : ¬ Terminated value) (set : RemovalSet) :
    (∃ e, count (compactStrings value set) = .error e) ↔ value.count 0 ∉ set.indices := by
  induction value using entries_induction generalizing set with
  | tail tail hmem =>
    rw [terminated_iff_of_not_mem hmem] at h
    rw [compactStrings_of_not_mem set hmem, List.count_eq_zero_of_not_mem hmem,
      ← RemovalSet.contains_eq_true]
    cases set.contains 0 with
    | true => simp [count, split]
    | false => simp [count_of_not_mem hmem, h]
  | entry entry rest hentry ih =>
    rw [terminated_append] at h
    have hindex : (entry ++ 0 :: rest).count 0 = rest.count 0 + 1 := by
      rw [List.count_append, List.count_eq_zero_of_not_mem hentry, List.count_cons_self, Nat.zero_add]
    rw [hindex, ← RemovalSet.mem_rebased, ← ih h, compactStrings_append set hentry]
    cases set.contains 0 with
    | true => simp
    | false =>
      simp only [Bool.false_eq_true, if_false, List.append_assoc, List.singleton_append]
      rw [count_append hentry]
      cases count (compactStrings rest (set.rebased 1)) <;> simp [Except.map]

/-- **Reading what is left of a list.** Dropping entries lowers the count of a terminated list by the
number of those that are there; the answers of repeated reading are those for the whole list without
the ones at the dropped positions, also behind the last entry; and a tail, whose index is the number
of terminators, makes counting fail unless it is dropped. Counting succeeds exactly on terminated
lists, and its loop comes to its end on every list. -/
theorem reads_compactStrings (list : Bytes) (set : RemovalSet) :
    (∀ n, count list = .ok n → count (compactStrings list set) =
      .ok (n - (List.range n).countP set.contains)) ∧
    (∀ calls, (set.remaining calls).map (answerAt list) =
      (List.range (set.remaining calls).length).map (answerAt (compactStrings list set))) ∧
    (¬ Terminated list → ((∃ e, count (compactStrings list set) = .error e) ↔
      list.count 0 ∉ set.indices)) ∧
    ((∃ n, count list = .ok n) ↔ Terminated list) ∧
    ∀ outcome, CountsFrom 0 list outcome ↔ outcome = count list := by
  refine ⟨?_, map_answerAt_remaining list set, fun h => count_compactStrings_of_tail h set,
    exists_count_iff, ?_⟩
  · intro n hcount
    rw [count_compactStrings hcount, RemovalSet.length_remaining]
  · intro outcome
    rw [countsFrom_iff]
    cases count list <;> simp [Except.map]

/-- Of an entry, one that is not text, and a tail, the first goes. -/
theorem reads_compactStrings_tail :
    count [97, 0, 255, 0] = .ok 2 ∧
    count (compactStrings [97, 0, 255, 0] (.ofList [0, 7])) = .ok 1 ∧
    ¬ Terminated [97, 0, 255, 0, 98] ∧
    (∃ e, count (compactStrings [97, 0, 255, 0, 98] (.ofList [0, 7])) = .error e) ∧
    ¬ ∃ e, count (compactStrings [97, 0, 255, 0, 98] (.ofList [2])) = .error e := by
  have hcount : count [97, 0, 255, 0] = .ok 2 := rfl
  have htail : ¬ Terminated [97, 0, 255, 0, 98] := by decide
  refine ⟨hcount, (reads_compactStrings _ (.ofList [0, 7])).1 2 hcount, htail,
    ((reads_compactStrings _ (.ofList [0, 7])).2.2.1 htail).2 (by decide), ?_⟩
  rw [(reads_compactStrings _ (.ofList [2])).2.2.1 htail]
  decide

end StringList

end BootTree
