import BootTree.Proofs.Bounds.Entries
import BootTree.Proofs.Document.Malformed
import BootTree.Proofs.Document.Written

/-!
# BootTree.Proofs.Document.References

Lists of references by what they are written from. An entry is a zero cell, or a phandle and as many
cells as the node with that phandle asks for; so where an entry begins depends on all nodes that the
entries in front of it name.

* `Document.Carries`, `Document.FirstWith`: the nodes with a phandle, and the first one of them.
* `Document.Takes`: how many cells follow a reference to a node.
* `ListEntry`, `ListEntry.StandsFor`: entries as they are written, and what they stand for.
* `Malformed`: cells that begin with no entry, and what is wrong; `Document.exists_listing`: every list
  is entries up to its end or up to such cells.
* `Overflows`: the lists and numbers of cells for which the position behind an entry is no word.
-/

namespace BootTree

theorem Phandle.eq_of_raw_eq {phandle other : Phandle} (h : phandle.raw = other.raw) :
    phandle = other :=
  Option.some.inj ((ofRaw?_eq_some_iff.2 h).symm.trans (ofRaw?_eq_some_iff.2 rfl))

namespace Document

variable (doc : Document)

/-- A node has a phandle: its `phandle` is this cell, or, if it has no such property, its
`linux,phandle` is. -/
def Carries (i : Nat) (phandle : Phandle) : Prop :=
  doc.value? i "phandle" = some (Bytes.word phandle.raw) ∨
    doc.value? i "phandle" = none ∧ doc.value? i "linux,phandle" = some (Bytes.word phandle.raw)

instance (i : Nat) (phandle : Phandle) : Decidable (doc.Carries i phandle) :=
  inferInstanceAs (Decidable (_ ∨ _))

/-- The first node in document order that has a phandle. -/
structure FirstWith (phandle : Phandle) (i : Nat) : Prop where
  carries : doc.Carries i phandle
  first : ∀ j < i, ¬ doc.Carries j phandle

/-- How many cells follow a reference to a node. -/
inductive Takes (i : Nat) : ArgumentCount → Nat → Prop where
  | fixed {count : Nat} : Takes i (.fixed count) count
  | declared {property : Bytes} {cell : UInt32} :
      doc.value? i property = some (Bytes.word cell) → Takes i (.declaredBy property) cell.toNat

end Document

/-- An entry of a list of references, as it is written. -/
inductive ListEntry where
  | empty
  | reference (phandle : Phandle) (args : List UInt32)

namespace ListEntry

def cells : ListEntry → List UInt32
  | empty => [0]
  | reference phandle args => phandle.raw :: args

/-- What an entry stands for. An entry that names no node, or has other than the number of cells that
the node asks for, stands for nothing. -/
inductive StandsFor (doc : Document) (rule : ArgumentCount) : ListEntry → Option Reference → Prop where
  | empty : StandsFor doc rule .empty none
  | reference {phandle : Phandle} {args : List UInt32} {node : Nat} :
      doc.FirstWith phandle node → doc.Takes node rule args.length →
      StandsFor doc rule (.reference phandle args) (some ⟨node, args⟩)

end ListEntry

/-- Cells that begin with no entry, in a list of `total` cells, and what is wrong: nothing has the
phandle, the node with the phandle does not say how many cells it asks for, or there are fewer. -/
inductive Malformed (doc : Document) (rule : ArgumentCount) (total : Nat) :
    List UInt32 → TreeError → Prop where
  | dangling {raw : UInt32} {behind : List UInt32} : raw ≠ 0 →
      (∀ phandle i, doc.Carries i phandle → phandle.raw ≠ raw) →
      Malformed doc rule total (raw :: behind) (.badPhandle raw)
  | undeclared {phandle : Phandle} {node : Nat} {behind : List UInt32} :
      doc.FirstWith phandle node → (∀ count, ¬ doc.Takes node rule count) →
      Malformed doc rule total (phandle.raw :: behind) .badCellCount
  | short {phandle : Phandle} {node count : Nat} {behind : List UInt32} :
      doc.FirstWith phandle node → doc.Takes node rule count → behind.length < count →
      Malformed doc rule total (phandle.raw :: behind) (.badValue (4 * total))

/-- There are only empty entries in front of a reference, and the position behind its arguments is no
64-bit word. -/
structure Overflows (doc : Document) (rule : ArgumentCount) (entries : List ListEntry)
    (rest : List UInt32) : Prop where
  empty : ∀ entry ∈ entries, entry = .empty
  reference : ∃ phandle node count behind, rest = phandle.raw :: behind ∧
    doc.FirstWith phandle node ∧ doc.Takes node rule count ∧ 2 ^ 64 ≤ entries.length + 1 + count

/-! ## The answers of a document -/

namespace Document

variable {doc : Document} {i : Nat} {rule : ArgumentCount}

theorem cell_eq_some_iff {name : Bytes} {cell : UInt32} :
    doc.cell i name = .ok (some cell) ↔ doc.value? i name = some (Bytes.word cell) := by
  rw [Document.cell, readAs_eq_some_iff, Document.value?]
  constructor
  · rintro ⟨raw, hraw, hcell⟩
    rw [hraw, eq_word_of_singleCell hcell]
  · intro hvalue
    exact ⟨_, hvalue, singleCell_word cell⟩

theorem cell_eq_none_iff {name : Bytes} :
    doc.cell i name = .ok none ↔ doc.value? i name = none := by
  rw [Document.cell, readAs, Document.value?]
  cases valueOf? (doc.propertiesAt i) name with
  | none => simp
  | some raw => cases hraw : Tree.singleCell raw <;> simp [hraw]

theorem phandleOf_eq_some_iff {phandle : Phandle} :
    doc.phandleOf i = .ok (some phandle) ↔ doc.Carries i phandle := by
  rw [Carries, ← cell_eq_some_iff, ← cell_eq_some_iff, ← cell_eq_none_iff, Document.phandleOf]
  cases doc.cell i "phandle" with
  | error e => simp
  | ok found =>
    cases found with
    | some raw =>
      rw [Except.ok.injEq, Phandle.ofRaw?_eq_some_iff]
      simp [eq_comm]
    | none =>
      cases doc.cell i "linux,phandle" with
      | error e => simp [Except.map]
      | ok linux =>
        rw [Except.map, Except.ok.injEq, Option.bind_eq_some_iff]
        simp only [Phandle.ofRaw?_eq_some_iff]
        simp

theorem Carries.lt_size {phandle : Phandle} (h : doc.Carries i phandle) : i < doc.forest.size := by
  by_contra hout
  rw [Carries, value?_of_size_le (Nat.le_of_not_lt hout),
    value?_of_size_le (Nat.le_of_not_lt hout)] at h
  rcases h with h | ⟨-, h⟩ <;> cases h

theorem Carries.exists_firstWith {phandle : Phandle} (h : doc.Carries i phandle) :
    ∃ node, doc.FirstWith phandle node := by
  classical
  have hexists : ∃ j, doc.Carries j phandle := ⟨i, h⟩
  exact ⟨Nat.find hexists, Nat.find_spec hexists, fun j hj => Nat.find_min hexists hj⟩

/-- Where every phandle is a single cell, the search for one finds the first node that has it. -/
theorem PhandlesAreCells.findPhandle (h : doc.PhandlesAreCells) (phandle : Phandle) :
    doc.findPhandle phandle =
      .ok ((List.range doc.forest.size).find? fun i => doc.Carries i phandle) := by
  rw [Document.findPhandle, ← findM?_ok]
  congr 1
  funext i
  obtain ⟨found, hfound⟩ := h.phandleOf i
  simp [← phandleOf_eq_some_iff, hfound, Except.map]

theorem FirstWith.unique {phandle : Phandle} {j : Nat} (hi : doc.FirstWith phandle i)
    (hj : doc.FirstWith phandle j) : i = j := by
  rcases Nat.lt_trichotomy i j with hlt | heq | hlt
  · exact absurd hi.carries (hj.first i hlt)
  · exact heq
  · exact absurd hj.carries (hi.first j hlt)

theorem PhandlesAreCells.findPhandle_eq_some_iff (h : doc.PhandlesAreCells) {phandle : Phandle} :
    doc.findPhandle phandle = .ok (some i) ↔ doc.FirstWith phandle i := by
  rw [h.findPhandle, Except.ok.injEq, List.find?_range_eq_some]
  simp only [decide_eq_true_eq, List.mem_range, Bool.not_eq_eq_eq_not, Bool.not_true,
    decide_eq_false_iff_not]
  constructor
  · rintro ⟨hcarries, -, hfirst⟩
    exact ⟨hcarries, hfirst⟩
  · intro hfirst
    exact ⟨hfirst.carries, hfirst.carries.lt_size, hfirst.first⟩

theorem PhandlesAreCells.findPhandle_eq_none_iff (h : doc.PhandlesAreCells) {phandle : Phandle} :
    doc.findPhandle phandle = .ok none ↔ ∀ i, ¬ doc.Carries i phandle := by
  rw [h.findPhandle, Except.ok.injEq, List.find?_range_eq_none]
  simp only [Bool.not_eq_eq_eq_not, Bool.not_true, decide_eq_false_iff_not]
  constructor
  · intro hnone i hcarries
    exact hnone i hcarries.lt_size hcarries
  · intro hnone i _
    exact hnone i

theorem argumentCount_eq_ok_iff {count : Nat} :
    doc.argumentCount i rule = .ok count ↔ doc.Takes i rule count := by
  constructor
  · intro h
    cases rule with
    | fixed number =>
      cases h
      exact .fixed
    | declaredBy property =>
      rw [Document.argumentCount] at h
      split at h
      · rename_i cell hcell
        cases h
        exact .declared (cell_eq_some_iff.1 hcell)
      · cases h
      · cases h
      · cases h
  · rintro (_ | hvalue)
    · rfl
    · rw [Document.argumentCount, cell_eq_some_iff.2 hvalue]

theorem Takes.unique {count count' : Nat} (h : doc.Takes i rule count)
    (h' : doc.Takes i rule count') : count = count' := by
  rw [← argumentCount_eq_ok_iff] at h h'
  exact Except.ok.inj (h.symm.trans h')

end Document

/-! ## Lists -/

section Lists

variable {doc : Document} {rule : ArgumentCount} {entries : List ListEntry}
  {references : List (Option Reference)} {rest : List UInt32}

/-- What a list refers to are nodes with phandles. -/
theorem ListEntry.exists_firstWith
    (hentries : List.Forall₂ (ListEntry.StandsFor doc rule) entries references)
    {reference : Reference} (hmem : some reference ∈ references) :
    ∃ phandle, doc.FirstWith phandle reference.node := by
  induction hentries with
  | nil => cases hmem
  | cons hentry _ ih =>
    rcases List.mem_cons.1 hmem with heq | hbehind
    · subst heq
      cases hentry with
      | reference hfirst _ => exact ⟨_, hfirst⟩
    · exact ih hbehind

/-- Entries are read back as what they stand for. -/
theorem Document.PhandlesAreCells.entriesOf (h : doc.PhandlesAreCells)
    (hentries : List.Forall₂ (ListEntry.StandsFor doc rule) entries references) (rest : List UInt32) :
    EntriesOf doc rule (entries.flatMap ListEntry.cells ++ rest) references rest := by
  induction hentries with
  | nil => exact .nil
  | cons hentry _ ih =>
    rw [List.flatMap_cons, List.append_assoc]
    cases hentry with
    | empty => exact .empty ih
    | reference hfirst htakes =>
      exact .reference (Phandle.ofRaw?_eq_some_iff.2 rfl) (h.findPhandle_eq_some_iff.2 hfirst)
        (argumentCount_eq_ok_iff.2 htakes) ih

/-- No empty entry is malformed. -/
theorem Malformed.exists_cons {total : Nat} {e : TreeError} (h : Malformed doc rule total rest e) :
    ∃ raw behind, rest = raw :: behind ∧ raw ≠ 0 := by
  cases h with
  | dangling hzero _ => exact ⟨_, _, rfl, hzero⟩
  | @undeclared phandle _ _ _ _ => exact ⟨_, _, rfl, phandle.ne_zero⟩
  | @short phandle _ _ _ _ _ _ => exact ⟨_, _, rfl, phandle.ne_zero⟩

theorem Malformed.oddEntry {total : Nat} {e : TreeError} (h : doc.PhandlesAreCells)
    (hbad : Malformed doc rule total rest e) : OddEntry doc rule total rest e := by
  cases hbad with
  | @dangling raw behind hzero hnone =>
    cases hraw : Phandle.ofRaw? raw with
    | none => exact .reserved hzero hraw
    | some phandle =>
      refine .dangling hraw (h.findPhandle_eq_none_iff.2 ?_)
      intro i hcarries
      exact hnone phandle i hcarries (Phandle.ofRaw?_eq_some_iff.1 hraw)
  | @undeclared phandle node behind hfirst hnone =>
    cases hcount : doc.argumentCount node rule with
    | ok count => exact absurd (Document.argumentCount_eq_ok_iff.1 hcount) (hnone count)
    | error e =>
      rw [Document.badCellCount_of_argumentCount hcount] at hcount
      exact .count (Phandle.ofRaw?_eq_some_iff.2 rfl) (h.findPhandle_eq_some_iff.2 hfirst) hcount
  | short hfirst htakes hshort =>
    exact .short (Phandle.ofRaw?_eq_some_iff.2 rfl) (h.findPhandle_eq_some_iff.2 hfirst)
      (Document.argumentCount_eq_ok_iff.2 htakes) hshort

/-- A list that is not at its end begins with an entry, or with no entry. -/
theorem Document.exists_front (doc : Document) (rule : ArgumentCount) (total : Nat) (raw : UInt32)
    (behind : List UInt32) :
    (∃ entry reference rest, raw :: behind = ListEntry.cells entry ++ rest ∧
        ListEntry.StandsFor doc rule entry reference) ∨
      ∃ e, Malformed doc rule total (raw :: behind) e := by
  by_cases hzero : raw = 0
  · subst hzero
    exact .inl ⟨.empty, none, behind, rfl, .empty⟩
  by_cases hcarried : ∃ phandle i, doc.Carries i phandle ∧ phandle.raw = raw
  · obtain ⟨phandle, i, hcarries, rfl⟩ := hcarried
    obtain ⟨node, hfirst⟩ := hcarries.exists_firstWith
    by_cases hcount : ∃ count, doc.Takes node rule count
    · obtain ⟨count, htakes⟩ := hcount
      by_cases hshort : behind.length < count
      · exact .inr ⟨_, .short hfirst htakes hshort⟩
      · have hlength : (behind.take count).length = count := by
          rw [List.length_take]
          omega
        refine .inl ⟨.reference phandle (behind.take count), _, behind.drop count, ?_,
          .reference hfirst (hlength.symm ▸ htakes)⟩
        rw [ListEntry.cells, List.cons_append, List.take_append_drop]
    · exact .inr ⟨_, .undeclared hfirst (not_exists.1 hcount)⟩
  · refine .inr ⟨_, .dangling hzero ?_⟩
    intro phandle i hcarries hraw
    exact hcarried ⟨phandle, i, hcarries, hraw⟩

/-- Every list of cells is entries up to its end or up to cells that begin with no entry. -/
theorem Document.exists_listing (doc : Document) (rule : ArgumentCount) (total : Nat)
    (cells : List UInt32) :
    ∃ entries references rest, cells = entries.flatMap ListEntry.cells ++ rest ∧
      List.Forall₂ (ListEntry.StandsFor doc rule) entries references ∧
      (rest = [] ∨ ∃ e, Malformed doc rule total rest e) := by
  induction hk : cells.length using Nat.strong_induction_on generalizing cells with
  | h k ih =>
    cases cells with
    | nil => exact ⟨[], [], [], rfl, .nil, .inl rfl⟩
    | cons raw behind =>
      rcases doc.exists_front rule total raw behind with ⟨entry, reference, rest, hcells, hentry⟩ | hbad
      · have hlt : rest.length < k := by
          rw [← hk, hcells, List.length_append]
          cases entry <;> simp [ListEntry.cells]
        obtain ⟨entries, references, rest', rfl, hentries, hrest⟩ := ih _ hlt rest rfl
        refine ⟨entry :: entries, reference :: references, rest', ?_, .cons hentry hentries, hrest⟩
        rw [hcells, List.flatMap_cons, List.append_assoc]
      · exact ⟨[], [], raw :: behind, rfl, .nil, .inr hbad⟩

end Lists

/-- A number of cells that a node says is never too large for that. -/
theorem Overflows.exists_fixed {doc : Document} {rule : ArgumentCount} {entries : List ListEntry}
    {rest : List UInt32} (h : Overflows doc rule entries rest) (hlength : entries.length < 2 ^ 32) :
    ∃ count, rule = .fixed count ∧ 2 ^ 64 ≤ entries.length + 1 + count := by
  obtain ⟨-, phandle, node, count, behind, -, -, htakes, hover⟩ := h
  cases htakes with
  | fixed => exact ⟨count, rfl, hover⟩
  | @declared property cell _ =>
    have := cell.toNat_lt
    omega

end BootTree
