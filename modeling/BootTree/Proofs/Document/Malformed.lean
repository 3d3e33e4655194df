import BootTree.Proofs.Document.Answers

/-!
# BootTree.Proofs.Document.Malformed

Malformed entries in lists of references, and the errors that questions about a document end in.

* `OddEntry`: cells that do not begin with an entry, and what is wrong.
* `Tree.Stores.slotsFrom_of_oddEntry`: a list ends there, with this error.
* `Document.badValue_of_findPhandle`, `Document.badCellCount_of_argumentCount`: the errors that looking
  for a phandle and for a number of arguments can end in.
* `OddEntry.ne_notFound`: a malformed entry is never reported as one that does not exist.
-/

namespace BootTree

/-! ## Entries -/

/-- Cells of a list of `total` cells that do not begin with an entry, and what is wrong. -/
inductive OddEntry (doc : Document) (rule : ArgumentCount) (total : Nat) :
    List UInt32 → TreeError → Prop where
  | reserved {raw : UInt32} {tail : List UInt32} : raw ≠ 0 → Phandle.ofRaw? raw = none →
      OddEntry doc rule total (raw :: tail) (.badPhandle raw)
  | dangling {raw : UInt32} {tail : List UInt32} {phandle : Phandle} :
      Phandle.ofRaw? raw = some phandle → doc.findPhandle phandle = .ok none →
      OddEntry doc rule total (raw :: tail) (.badPhandle raw)
  | search {raw : UInt32} {tail : List UInt32} {phandle : Phandle} {e : TreeError} :
      Phandle.ofRaw? raw = some phandle → doc.findPhandle phandle = .error e →
      OddEntry doc rule total (raw :: tail) e
  | count {raw : UInt32} {tail : List UInt32} {phandle : Phandle} {node : Nat} {e : TreeError} :
      Phandle.ofRaw? raw = some phandle → doc.findPhandle phandle = .ok (some node) →
      doc.argumentCount node rule = .error e → OddEntry doc rule total (raw :: tail) e
  | short {raw : UInt32} {tail : List UInt32} {phandle : Phandle} {node count : Nat} :
      Phandle.ofRaw? raw = some phandle → doc.findPhandle phandle = .ok (some node) →
      doc.argumentCount node rule = .ok count → tail.length < count →
      OddEntry doc rule total (raw :: tail) (.badValue (4 * total))

/-- Where no entry can be read the list ends, with what is wrong. -/
theorem Tree.Stores.slotsFrom_of_oddEntry {tree : Tree} {doc : Document} (h : tree.Stores doc)
    {rule : ArgumentCount} {total : Nat} {cells : List UInt32} {e : TreeError}
    (hodd : OddEntry doc rule total cells e) : tree.slotsFrom rule total cells = ⟨[], some e⟩ := by
  have hnonzero {raw : UInt32} {phandle : Phandle} (hraw : Phandle.ofRaw? raw = some phandle) :
      raw ≠ 0 := by
    rw [← Phandle.ofRaw?_eq_some_iff.1 hraw]
    exact phandle.ne_zero
  cases hodd with
  | reserved hzero hraw =>
    rw [slotsFrom, if_neg hzero, reference, Phandle.ofRaw, hraw]
    rfl
  | dangling hraw hfound =>
    rw [slotsFrom, if_neg (hnonzero hraw), reference, Phandle.ofRaw, hraw]
    simp [bind, Except.bind, h.findPhandle, hfound, Except.map, throw, throwThe, MonadExceptOf.throw]
  | search hraw hfound =>
    rw [slotsFrom, if_neg (hnonzero hraw), reference, Phandle.ofRaw, hraw]
    simp [bind, Except.bind, h.findPhandle, hfound, Except.map]
  | count hraw hfound hcount =>
    obtain ⟨node, hnode⟩ := h.exists_of_findPhandle hfound
    rw [slotsFrom, if_neg (hnonzero hraw), reference, Phandle.ofRaw, hraw]
    simp [bind, Except.bind, h.findPhandle, hfound, Except.map, hnode, h.argumentCount hnode, hcount]
  | @short raw _ phandle i count hraw hfound hcount hshort =>
    obtain ⟨node, hnode⟩ := h.exists_of_findPhandle hfound
    have hreference : tree.reference rule raw = .ok (node, count) :=
      h.reference_eq_ok_iff.2 ⟨phandle, i, hraw, hfound, hnode, hcount⟩
    rw [slotsFrom, if_neg (hnonzero hraw), hreference]
    exact if_pos hshort

/-! ## Errors of questions -/

theorem exists_of_findM?_error {ε α : Type} {p : α → Except ε Bool} {l : List α} {e : ε}
    (h : l.findM? p = .error e) : ∃ a ∈ l, p a = .error e := by
  induction l with
  | nil => cases h
  | cons b bs ih =>
    rw [List.findM?] at h
    cases hb : p b with
    | error e' =>
      rw [hb] at h
      cases h
      exact ⟨b, List.mem_cons_self, hb⟩
    | ok found =>
      rw [hb] at h
      cases found with
      | true => cases h
      | false =>
        obtain ⟨a, hmem, ha⟩ := ih h
        exact ⟨a, List.mem_cons_of_mem _ hmem, ha⟩

namespace Document

variable {doc : Document} {i : Nat} {e : TreeError}

theorem badValue_of_cell {name : Bytes} (h : doc.cell i name = .error e) :
    ∃ length, e = .badValue length := by
  rw [Document.cell, readAs] at h
  split at h
  · cases h
  · split at h
    · cases h
      exact ⟨_, rfl⟩
    · cases h

theorem badValue_of_phandleOf (h : doc.phandleOf i = .error e) : ∃ length, e = .badValue length := by
  rw [Document.phandleOf] at h
  cases hcell : doc.cell i "phandle" with
  | error e' =>
    rw [hcell] at h
    cases h
    exact badValue_of_cell hcell
  | ok found =>
    rw [hcell] at h
    cases found with
    | some raw => cases h
    | none =>
      cases hlinux : doc.cell i "linux,phandle" with
      | error e' =>
        rw [hlinux] at h
        cases h
        exact badValue_of_cell hlinux
      | ok raw => rw [hlinux] at h; cases h

/-- A search for a phandle fails at a malformed one only. -/
theorem badValue_of_findPhandle {phandle : Phandle} (h : doc.findPhandle phandle = .error e) :
    ∃ length, e = .badValue length := by
  obtain ⟨i, -, hi⟩ := exists_of_findM?_error h
  cases hphandle : doc.phandleOf i with
  | error e' =>
    rw [hphandle] at hi
    cases hi
    exact badValue_of_phandleOf hphandle
  | ok found => rw [hphandle] at hi; cases hi

theorem badCellCount_of_argumentCount {rule : ArgumentCount}
    (h : doc.argumentCount i rule = .error e) : e = .badCellCount := by
  cases rule with
  | fixed count => cases h
  | declaredBy property =>
    rw [Document.argumentCount] at h
    cases hcell : doc.cell i property with
    | error e' =>
      obtain ⟨length, rfl⟩ := badValue_of_cell hcell
      rw [hcell] at h
      cases h
      rfl
    | ok found =>
      rw [hcell] at h
      cases found with
      | none => cases h; rfl
      | some count => cases h

end Document

/-- What is wrong with an entry is never that it does not exist. -/
theorem OddEntry.ne_notFound {doc : Document} {rule : ArgumentCount} {total : Nat}
    {cells : List UInt32} {e : TreeError} (h : OddEntry doc rule total cells e) : e ≠ .notFound := by
  cases h with
  | reserved _ _ => simp
  | dangling _ _ => simp
  | search _ hfound =>
    obtain ⟨length, rfl⟩ := Document.badValue_of_findPhandle hfound
    simp
  | count _ _ hcount =>
    rw [Document.badCellCount_of_argumentCount hcount]
    simp
  | short _ _ _ _ => simp

end BootTree
