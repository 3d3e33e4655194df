import BootTree.Proofs.Document.References

/-!
# BootTree.Proofs.Document.Listing

Reading a list of references entry by entry, out of the tree that stores it: entries up to the end
give what they stand for, the cells behind them the error that they deserve, and positions that are
no words any more nothing at all.

* `Tree.Stores.overruns_iff_overflows`: positions that fit, said of the document.
* `Tree.Stores.slotEntry_listing`: what is read at each index of a list.
-/

namespace BootTree

/-! ## Positions that fit -/

namespace Tree

variable {tree : Tree} {rule : ArgumentCount} {position index : Nat} {raw : UInt32}
  {behind : List UInt32}

theorem overruns_zero_cons :
    tree.Overruns rule position (0 :: behind) index ↔
      0 < index ∧ tree.Overruns rule (position + 1) behind (index - 1) := by
  constructor
  · rintro (⟨hraw, -, -⟩ | hbehind)
    · exact absurd rfl hraw
    · exact ⟨Nat.succ_pos _, hbehind⟩
  · rintro ⟨hindex, hbehind⟩
    obtain ⟨index, rfl⟩ := Nat.exists_eq_succ_of_ne_zero (Nat.ne_of_gt hindex)
    exact .empty hbehind

theorem overruns_cons_of_ne_zero (hraw : raw ≠ 0) :
    tree.Overruns rule position (raw :: behind) index ↔
      ∃ target count, tree.reference rule raw = .ok (target, count) ∧
        2 ^ 64 ≤ position + 1 + count := by
  constructor
  · rintro (⟨-, href, hover⟩ | hbehind)
    · exact ⟨_, _, href, hover⟩
    · exact absurd rfl hraw
  · rintro ⟨target, count, href, hover⟩
    exact .reference hraw href hover

namespace Stores

variable {doc : Document} {entries : List ListEntry} {references : List (Option Reference)}
  {rest : List UInt32}

theorem overruns_cons_iff (h : tree.Stores doc) (hphandles : doc.PhandlesAreCells) (hraw : raw ≠ 0) :
    tree.Overruns rule position (raw :: behind) index ↔
      ∃ phandle node count, phandle.raw = raw ∧ doc.FirstWith phandle node ∧
        doc.Takes node rule count ∧ 2 ^ 64 ≤ position + 1 + count := by
  simp only [overruns_cons_of_ne_zero hraw, h.reference_eq_ok_iff, Phandle.ofRaw?_eq_some_iff,
    hphandles.findPhandle_eq_some_iff, Document.argumentCount_eq_ok_iff]
  constructor
  · rintro ⟨target, count, ⟨phandle, node, hphandle, hfirst, -, htakes⟩, hover⟩
    exact ⟨phandle, node, count, hphandle, hfirst, htakes, hover⟩
  · rintro ⟨phandle, node, count, hphandle, hfirst, htakes, hover⟩
    obtain ⟨target, htarget⟩ := h.exists_of_findPhandle (hphandles.findPhandle_eq_some_iff.2 hfirst)
    exact ⟨target, count, ⟨phandle, node, hphandle, hfirst, htarget, htakes⟩, hover⟩

/-- The positions behind entries that can be read fit. So a position that does not has only empty
entries in front of it. -/
theorem overruns_flatMap_iff (h : tree.Stores doc) (hphandles : doc.PhandlesAreCells)
    (hentries : List.Forall₂ (ListEntry.StandsFor doc rule) entries references)
    (hfits : position + (entries.flatMap ListEntry.cells).length < 2 ^ 64) :
    tree.Overruns rule position (entries.flatMap ListEntry.cells ++ rest) index ↔
      (∀ entry ∈ entries, entry = .empty) ∧ entries.length ≤ index ∧
        tree.Overruns rule (position + entries.length) rest (index - entries.length) := by
  induction hentries generalizing position index with
  | nil => simp
  | @cons entry reference entries references hentry _ ih =>
    rw [List.flatMap_cons, List.length_append] at hfits
    rw [List.flatMap_cons, List.append_assoc]
    cases hentry with
    | empty =>
      rw [ListEntry.cells, List.length_singleton] at hfits
      rw [ListEntry.cells, List.singleton_append, overruns_zero_cons, ih (by omega)]
      simp only [List.mem_cons, forall_eq_or_imp, true_and, List.length_cons]
      rw [show index - 1 - entries.length = index - (entries.length + 1) by omega,
        show position + 1 + entries.length = position + (entries.length + 1) by omega]
      constructor
      · rintro ⟨hindex, hempty, hle, hover⟩
        exact ⟨hempty, by omega, hover⟩
      · rintro ⟨hempty, hle, hover⟩
        exact ⟨by omega, hempty, by omega, hover⟩
    | @reference phandle args node hfirst htakes =>
      rw [ListEntry.cells, List.length_cons] at hfits
      rw [ListEntry.cells, List.cons_append, h.overruns_cons_iff hphandles phandle.ne_zero]
      constructor
      · rintro ⟨other, i, count, hraw, hfirst', htakes', hover⟩
        cases Phandle.eq_of_raw_eq hraw
        rw [hfirst'.unique hfirst] at htakes'
        rw [htakes'.unique htakes] at hover
        omega
      · rintro ⟨hempty, -, -⟩
        cases hempty _ List.mem_cons_self

theorem overruns_iff_overflows (h : tree.Stores doc) (hphandles : doc.PhandlesAreCells)
    (hentries : List.Forall₂ (ListEntry.StandsFor doc rule) entries references) {total : Nat}
    {e : TreeError} (hbad : Malformed doc rule total rest e)
    (hfits : (entries.flatMap ListEntry.cells).length < 2 ^ 64) (hindex : entries.length ≤ index) :
    tree.Overruns rule 0 (entries.flatMap ListEntry.cells ++ rest) index ↔
      Overflows doc rule entries rest := by
  obtain ⟨raw, behind, rfl, hraw⟩ := hbad.exists_cons
  rw [h.overruns_flatMap_iff hphandles hentries (by omega), h.overruns_cons_iff hphandles hraw,
    Nat.zero_add]
  constructor
  · rintro ⟨hempty, -, phandle, node, count, rfl, hfirst, htakes, hover⟩
    exact ⟨hempty, phandle, node, count, behind, rfl, hfirst, htakes, hover⟩
  · rintro ⟨hempty, phandle, node, count, _, hcells, hfirst, htakes, hover⟩
    cases hcells
    exact ⟨hempty, hindex, phandle, node, count, rfl, hfirst, htakes, hover⟩

/-! ## Reading an entry -/

section Listing

variable {i : Nat} {ref : NodeRef} {property : Bytes}

theorem cells_of_value? (h : tree.Stores doc) (href : tree.nodes[i]? = some ref)
    {cells : List UInt32} (hlist : doc.value? i property = some (Cells.encode cells)) :
    tree.cells ref property = .ok (some cells) := by
  rw [h.cells href]
  exact readAs_eq_some_iff.2 ⟨_, hlist, Cells.decode_encode cells⟩

/-- Where the positions fit, an entry is one that the list is written from, or what is wrong behind
these. -/
theorem slotEntry_of_not_overruns (h : tree.Stores doc) (hphandles : doc.PhandlesAreCells)
    (hstruct : tree.structBlock.length < 2 ^ 32) (href : tree.nodes[i]? = some ref)
    (hlist : doc.value? i property =
      some (Cells.encode (entries.flatMap ListEntry.cells ++ rest)))
    (hentries : List.Forall₂ (ListEntry.StandsFor doc rule) entries references)
    (hover : ¬ tree.Overruns rule 0 (entries.flatMap ListEntry.cells ++ rest) index) {behind : SlotList}
    (hbehind : tree.slotsFrom rule (entries.flatMap ListEntry.cells ++ rest).length rest = behind) :
    tree.slotEntry ref property rule index =
      some (SlotList.entry ⟨references.map tree.slotOf ++ behind.slots, behind.failure⟩ index) := by
  have hcells := h.cells_of_value? href hlist
  have hsome : tree.slotEntry ref property rule index ≠ none := by
    rw [Ne, slotEntry_eq_none_iff hstruct]
    rintro ⟨cells, hcells', hover'⟩
    rw [hcells, Except.ok.injEq, Option.some.injEq] at hcells'
    exact hover (hcells' ▸ hover')
  rw [slotEntry_eq_some hstruct hsome, readSlots, hcells]
  dsimp only
  rw [h.slotsFrom_of_entriesOf (hphandles.entriesOf hentries rest), hbehind]
  rfl

/-- In front of the end of the entries all positions fit. -/
theorem slotEntry_of_getElem? (h : tree.Stores doc) (hphandles : doc.PhandlesAreCells)
    (hstruct : tree.structBlock.length < 2 ^ 32) (href : tree.nodes[i]? = some ref)
    (hlist : doc.value? i property =
      some (Cells.encode (entries.flatMap ListEntry.cells ++ rest)))
    (hentries : List.Forall₂ (ListEntry.StandsFor doc rule) entries references)
    (hfits : (entries.flatMap ListEntry.cells).length < 2 ^ 64) {reference : Option Reference}
    (hreference : references[index]? = some reference) :
    tree.slotEntry ref property rule index =
      some (SlotList.entry ⟨references.map tree.slotOf, none⟩ index) := by
  obtain ⟨hlt, -⟩ := List.getElem?_eq_some_iff.1 hreference
  have hno : ¬ tree.Overruns rule 0 (entries.flatMap ListEntry.cells ++ rest) index := by
    rw [h.overruns_flatMap_iff hphandles hentries (by omega)]
    rintro ⟨-, hle, -⟩
    rw [hentries.length_eq] at hle
    omega
  rw [h.slotEntry_of_not_overruns hphandles hstruct href hlist hentries hno rfl, SlotList.entry,
    SlotList.entry, List.getElem?_append_left (by simpa using hlt), List.getElem?_map, hreference,
    Option.map_some]
  cases tree.slotOf reference <;> rfl

/-- **A list of references is read as it is written.** At the index of an entry there is the first
node that has the phandle, with the cells behind it, or nothing if the entry is empty. Behind the
entries there is nothing, or what is wrong there. -/
theorem slotEntry_listing (h : tree.Stores doc) (hphandles : doc.PhandlesAreCells)
    (hsize : tree.totalSize < 2 ^ 32) (href : tree.nodes[i]? = some ref)
    (hlist : doc.value? i property =
      some (Cells.encode (entries.flatMap ListEntry.cells ++ rest)))
    (hentries : List.Forall₂ (ListEntry.StandsFor doc rule) entries references) (index : Nat) :
    (∀ node args, references[index]? = some (some ⟨node, args⟩) →
      ∃ target, tree.nodes[node]? = some target ∧
        tree.slotEntry ref property rule index = some (.ok (target, args))) ∧
    (references[index]? = some none →
      tree.slotEntry ref property rule index = some (.error .notFound)) ∧
    (references.length ≤ index → rest = [] →
      tree.slotEntry ref property rule index = some (.error .notFound)) ∧
    (references.length ≤ index →
      ∀ e, Malformed doc rule (entries.flatMap ListEntry.cells ++ rest).length rest e →
        e ≠ .notFound ∧
        (Overflows doc rule entries rest → tree.slotEntry ref property rule index = none) ∧
        (¬ Overflows doc rule entries rest →
          tree.slotEntry ref property rule index = some (.error e))) := by
  have hstruct : tree.structBlock.length < 2 ^ 32 := by
    rw [totalSize, usedSize, stringsOffset] at hsize
    omega
  have hcells := h.cells_of_value? href hlist
  have hfits : (entries.flatMap ListEntry.cells).length < 2 ^ 64 := by
    have hle := length_le_of_cells hcells
    rw [List.length_append] at hle
    omega
  refine ⟨?_, ?_, ?_, ?_⟩
  · intro node args hentry
    obtain ⟨phandle, hfirst⟩ := ListEntry.exists_firstWith hentries (List.mem_of_getElem? hentry)
    obtain ⟨target, htarget⟩ := h.exists_of_findPhandle (hphandles.findPhandle_eq_some_iff.2 hfirst)
    refine ⟨target, htarget, ?_⟩
    rw [h.slotEntry_of_getElem? hphandles hstruct href hlist hentries hfits hentry, SlotList.entry,
      List.getElem?_map, hentry, Option.map_some, slotOf, List.getD_eq_getElem?_getD, htarget]
    rfl
  · intro hentry
    rw [h.slotEntry_of_getElem? hphandles hstruct href hlist hentries hfits hentry, SlotList.entry,
      List.getElem?_map, hentry]
    rfl
  · rintro hle rfl
    have hend : tree.slotsFrom rule (entries.flatMap ListEntry.cells ++ []).length [] = ⟨[], none⟩ :=
      slotsFrom.eq_1 ..
    have hno : ¬ tree.Overruns rule 0 (entries.flatMap ListEntry.cells ++ []) index := by
      rw [h.overruns_flatMap_iff hphandles hentries (by omega)]
      rintro ⟨-, -, hover⟩
      cases hover
    rw [h.slotEntry_of_not_overruns hphandles hstruct href hlist hentries hno hend, SlotList.entry,
      List.append_nil, List.getElem?_eq_none (by simpa using hle)]
  · intro hle e hbad
    have hodd := hbad.oddEntry hphandles
    have hiff := h.overruns_iff_overflows hphandles hentries hbad hfits
      (hentries.length_eq.trans_le hle)
    refine ⟨hodd.ne_notFound, ?_, ?_⟩
    · intro hoverflows
      exact (slotEntry_eq_none_iff hstruct).2 ⟨_, hcells, hiff.2 hoverflows⟩
    · intro hno
      rw [h.slotEntry_of_not_overruns hphandles hstruct href hlist hentries (mt hiff.1 hno)
        (h.slotsFrom_of_oddEntry hodd),
        SlotList.entry, List.append_nil, List.getElem?_eq_none (by simpa using hle)]

end Listing

end Stores

end Tree

/-! ## A list that ends in a malformed entry -/

/-- Two controllers, the second one with a phandle that a third node has as well, and a device with a
list of references to them. -/
def resetDocument : Document where
  name := []
  properties := []
  children :=
    .node "power-controller" [⟨"phandle", Cells.encode [1]⟩, ⟨"#cells", Cells.encode [1]⟩] .nil
    (.node "reset-controller" [⟨"linux,phandle", Cells.encode [2]⟩, ⟨"#cells", Cells.encode [2]⟩] .nil
    (.node "clock-controller" [⟨"phandle", Cells.encode [2]⟩, ⟨"#cells", Cells.encode [0]⟩] .nil
    (.node "serial@5a060000" [⟨"resets", Cells.encode [1, 188, 0, 2, 5, 7, 9]⟩,
      ⟨"power-domains", Cells.encode [1, 188]⟩] .nil .nil)))

def resetTree : Tree :=
  resetDocument.write (StringList.join ["phandle", "linux,phandle", "#cells", "resets",
    "power-domains"]) 0

theorem stores_resetTree : resetTree.Stores resetDocument :=
  Document.stores_write (by decide) rfl 0

theorem phandlesAreCells_resetDocument : resetDocument.PhandlesAreCells := by decide

theorem totalSize_resetTree : resetTree.totalSize < 2 ^ 32 := by decide +kernel

def powerPhandle : Phandle := ⟨1, by decide, by decide⟩

def resetPhandle : Phandle := ⟨2, by decide, by decide⟩

theorem firstWith_powerPhandle : resetDocument.FirstWith powerPhandle 1 :=
  ⟨by decide, by decide⟩

theorem firstWith_resetPhandle : resetDocument.FirstWith resetPhandle 2 :=
  ⟨by decide, by decide⟩

theorem exists_nodes_resetTree {i : Nat} (h : i < 5) : ∃ ref, resetTree.nodes[i]? = some ref := by
  have hlt : i < resetTree.nodes.length := by
    rw [stores_resetTree.length_nodes]
    exact h
  exact ⟨_, List.getElem?_eq_getElem hlt⟩

/-- The second node with a phandle is not what an entry leads to, and nothing has the last phandle. -/
theorem Tree.Stores.slotEntry_resetTree : ∃ device controller : NodeRef,
    resetTree.nodes[4]? = some device ∧ resetTree.nodes[2]? = some controller ∧
      resetTree.slotEntry device "resets" (.declaredBy "#cells") 1 = some (.error .notFound) ∧
      resetTree.slotEntry device "resets" (.declaredBy "#cells") 2 =
        some (.ok (controller, [5, 7])) ∧
      resetTree.slotEntry device "resets" (.declaredBy "#cells") 3 =
        some (.error (.badPhandle 9)) := by
  obtain ⟨device, hdevice⟩ := exists_nodes_resetTree (by decide : 4 < 5)
  have hlist : resetDocument.value? 4 "resets" =
      some (Cells.encode ([.reference powerPhandle [188], .empty,
        .reference resetPhandle [5, 7]].flatMap ListEntry.cells ++ [9])) := by decide
  have hpower : resetDocument.Takes 1 (.declaredBy "#cells") 1 :=
    .declared (by decide : _ = some (Bytes.word 1))
  have hreset : resetDocument.Takes 2 (.declaredBy "#cells") 2 :=
    .declared (by decide : _ = some (Bytes.word 2))
  have hentries : List.Forall₂ (ListEntry.StandsFor resetDocument (.declaredBy "#cells"))
      [.reference powerPhandle [188], .empty, .reference resetPhandle [5, 7]]
      [some ⟨1, [188]⟩, none, some ⟨2, [5, 7]⟩] :=
    .cons (.reference firstWith_powerPhandle hpower)
      (.cons .empty (.cons (.reference firstWith_resetPhandle hreset) .nil))
  have hnone : ∀ i < resetDocument.forest.size,
      ¬ resetDocument.Carries i ⟨9, by decide, by decide⟩ := by decide
  have hbad : Malformed resetDocument (.declaredBy "#cells") 7 [9] (.badPhandle 9) := by
    refine .dangling (by decide) ?_
    intro phandle i hcarries hraw
    obtain rfl : phandle = ⟨9, by decide, by decide⟩ := Phandle.eq_of_raw_eq hraw
    exact hnone i hcarries.lt_size hcarries
  have hlisting := slotEntry_listing stores_resetTree phandlesAreCells_resetDocument
    totalSize_resetTree hdevice hlist hentries
  obtain ⟨-, hempty, -⟩ := hlisting 1
  obtain ⟨hreference, -⟩ := hlisting 2
  obtain ⟨controller, hcontroller, hentry⟩ := hreference 2 [5, 7] rfl
  obtain ⟨-, -, -, hbehind⟩ := hlisting 3
  obtain ⟨-, -, herror⟩ := hbehind (Nat.le_refl 3) _ hbad
  have hno : ¬ Overflows resetDocument (.declaredBy "#cells")
      [.reference powerPhandle [188], .empty, .reference resetPhandle [5, 7]] [9] := by
    rintro ⟨hall, -⟩
    cases hall _ List.mem_cons_self
  exact ⟨device, controller, hdevice, hcontroller, hempty rfl, hentry, herror hno⟩

/-- A list with fewer cells than are asked for is malformed, but if their number is so large that its
sum with the position is no word, this is not found out. -/
theorem slotEntry_resetTree_overflow : ∃ device : NodeRef,
    resetTree.Stores resetDocument ∧ resetDocument.PhandlesAreCells ∧
      resetTree.totalSize < 2 ^ 32 ∧ resetTree.nodes[4]? = some device ∧
      resetDocument.value? 4 "power-domains" = some (Cells.encode [1, 188]) ∧
      Malformed resetDocument (.fixed (2 ^ 64 - 1)) 2 [1, 188] (.badValue 8) ∧
      resetTree.slotEntry device "power-domains" (.fixed (2 ^ 64 - 1)) 0 = none := by
  obtain ⟨device, hdevice⟩ := exists_nodes_resetTree (by decide : 4 < 5)
  have hlist : resetDocument.value? 4 "power-domains" = some (Cells.encode [1, 188]) := by decide
  have hbad : Malformed resetDocument (.fixed (2 ^ 64 - 1)) 2 [1, 188] (.badValue 8) :=
    .short firstWith_powerPhandle .fixed (by decide)
  refine ⟨device, stores_resetTree, phandlesAreCells_resetDocument, totalSize_resetTree, hdevice,
    hlist, hbad, ?_⟩
  have hstruct : resetTree.structBlock.length < 2 ^ 32 := by decide +kernel
  rw [Tree.slotEntry_eq_none_iff hstruct]
  refine ⟨_, stores_resetTree.cells_of_value? hdevice hlist, ?_⟩
  rw [stores_resetTree.overruns_cons_iff phandlesAreCells_resetDocument (by decide)]
  exact ⟨powerPhandle, 1, 2 ^ 64 - 1, rfl, firstWith_powerPhandle, .fixed, by decide⟩

end BootTree
