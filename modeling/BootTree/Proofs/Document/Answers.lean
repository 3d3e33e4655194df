import BootTree.Proofs.Document.Queries

/-!
# BootTree.Proofs.Document.Answers

A tree answers questions about its nodes as the document does that it stores, errors included; so
what is decided by such questions is decided by the document alone.

* `Tree.Stores.cell`, `Tree.Stores.isEnabled`, `Tree.Stores.findPhandle` and others: questions about
  nodes.
* `Tree.Stores.slotsFrom_of_entriesOf`, `Tree.Stores.readSlots_getElem?`: lists of references.
-/

namespace BootTree

/-! ## The answers of a tree -/

namespace Tree.Stores

variable {tree : Tree} {doc : Document} {i : Nat} {ref : NodeRef}

theorem properties?_eq (h : tree.Stores doc) (href : tree.nodes[i]? = some ref) :
    doc.properties? i = some (doc.propertiesAt i) := by
  obtain ⟨node, pre, body, inner, post, hat⟩ := h.exists_storedAt href
  rw [Document.propertiesAt, hat.properties?_eq, Option.getD_some]

theorem value_eq (h : tree.Stores doc) (href : tree.nodes[i]? = some ref) (name : Bytes) :
    tree.value ref name = .ok (doc.value? i name) :=
  h.value href (h.properties?_eq href) name

theorem cell (h : tree.Stores doc) (href : tree.nodes[i]? = some ref) (name : Bytes) :
    tree.cell ref name = doc.cell i name :=
  h.valueAs href (h.properties?_eq href) singleCell name

theorem cells (h : tree.Stores doc) (href : tree.nodes[i]? = some ref) (name : Bytes) :
    tree.cells ref name = doc.cells i name :=
  h.valueAs href (h.properties?_eq href) Cells.decode name

theorem isEnabled (h : tree.Stores doc) (href : tree.nodes[i]? = some ref) :
    tree.isEnabled ref = doc.isEnabled i := by
  rewrite [Tree.isEnabled, Document.isEnabled, text,
    h.valueAs href (h.properties?_eq href) StringList.text]
  rfl

theorem isCompatible (h : tree.Stores doc) (href : tree.nodes[i]? = some ref)
    (compatible : Bytes) : tree.isCompatible ref compatible = doc.isCompatible i compatible := by
  rw [Tree.isCompatible, Document.isCompatible, h.value_eq href]
  cases doc.value? i "compatible" with
  | none => rfl
  | some list => rfl

theorem findCompatible (h : tree.Stores doc) (compatible : Bytes) :
    tree.findCompatible none compatible =
      .ok (((List.range doc.forest.size).find? (doc.isCompatible · compatible)).bind
        (tree.nodes[·]?)) := by
  have hsearch := @find?_walkAll tree doc h (fun node => .ok (tree.isCompatible node compatible))
    (fun i => .ok (doc.isCompatible i compatible)) (fun i ref href => by rw [h.isCompatible href])
  rw [findM?_ok] at hsearch
  exact hsearch

theorem phandleOf (h : tree.Stores doc) (href : tree.nodes[i]? = some ref) :
    tree.phandleOf ref = doc.phandleOf i := by
  rewrite [Tree.phandleOf, Document.phandleOf, h.cell href, h.cell href]
  rfl

theorem findPhandle (h : tree.Stores doc) (phandle : Phandle) :
    tree.findPhandle phandle = (doc.findPhandle phandle).map (·.bind (tree.nodes[·]?)) := by
  rw [Tree.findPhandle, Document.findPhandle]
  apply h.find?_walkAll
  intro i ref href
  rw [h.phandleOf href]

theorem findRaw (h : tree.Stores doc) (raw : UInt32) :
    tree.findRaw raw = (doc.findRaw raw).map (·.bind (tree.nodes[·]?)) := by
  rw [Tree.findRaw, Document.findRaw]
  cases Phandle.ofRaw? raw with
  | none => rfl
  | some phandle => exact h.findPhandle phandle

theorem argumentCount (h : tree.Stores doc) (href : tree.nodes[i]? = some ref)
    (rule : ArgumentCount) : tree.argumentCount ref rule = doc.argumentCount i rule := by
  cases rule with
  | fixed count => rfl
  | declaredBy property =>
    rewrite [Tree.argumentCount, Document.argumentCount, h.cell href]
    rfl

/-- A number that a search found is that of a node. -/
theorem exists_of_findPhandle (h : tree.Stores doc) {phandle : Phandle}
    (hfound : doc.findPhandle phandle = .ok (some i)) : ∃ ref, tree.nodes[i]? = some ref := by
  have hlt := Document.lt_of_findPhandle hfound
  rw [← h.length_nodes] at hlt
  exact ⟨_, List.getElem?_eq_getElem hlt⟩

theorem exists_of_findRaw (h : tree.Stores doc) {raw : UInt32}
    (hfound : doc.findRaw raw = .ok (some i)) : ∃ ref, tree.nodes[i]? = some ref := by
  rw [Document.findRaw] at hfound
  cases hraw : Phandle.ofRaw? raw with
  | none => rw [hraw] at hfound; cases hfound
  | some phandle =>
    rw [hraw] at hfound
    exact h.exists_of_findPhandle hfound

/-- What a reference in a list leads to. -/
theorem reference_eq_ok_iff (h : tree.Stores doc) {rule : ArgumentCount} {raw : UInt32}
    {count : Nat} :
    tree.reference rule raw = .ok (ref, count) ↔
      ∃ phandle i, Phandle.ofRaw? raw = some phandle ∧ doc.findPhandle phandle = .ok (some i) ∧
        tree.nodes[i]? = some ref ∧ doc.argumentCount i rule = .ok count := by
  rw [reference, Phandle.ofRaw]
  cases hraw : Phandle.ofRaw? raw with
  | none => simp [bind, Except.bind]
  | some phandle =>
    cases hfound : doc.findPhandle phandle with
    | error e => simp [bind, Except.bind, h.findPhandle, hfound, Except.map]
    | ok found =>
      cases found with
      | none =>
        simp [bind, Except.bind, h.findPhandle, hfound, Except.map, throw, throwThe,
          MonadExceptOf.throw]
      | some i =>
        obtain ⟨node, hnode⟩ := h.exists_of_findPhandle hfound
        cases hcount : doc.argumentCount i rule with
        | error e =>
          simp [bind, Except.bind, h.findPhandle, hfound, Except.map, hnode,
            h.argumentCount hnode, hcount]
        | ok args =>
          simp [bind, Except.bind, pure, Except.pure, h.findPhandle, hfound, Except.map, hnode,
            h.argumentCount hnode, hcount]

end Tree.Stores

/-! ## Lists of references -/

/-- An entry of a list as a tree reads it. -/
def Tree.slotOf (tree : Tree) : Option Reference → Slot
  | none => .empty
  | some reference => .reference (tree.nodes.getD reference.node ⟨0⟩) reference.args

namespace Tree.Stores

variable {tree : Tree} {doc : Document} {rule : ArgumentCount} {cells rest : List UInt32}
  {entries : List (Option Reference)}

/-- Entries that can be read are read, whatever stands behind them. -/
theorem slotsFrom_of_entriesOf (h : tree.Stores doc) (hentries : EntriesOf doc rule cells entries rest)
    (total : Nat) :
    tree.slotsFrom rule total cells =
      ⟨entries.map tree.slotOf ++ (tree.slotsFrom rule total rest).slots,
        (tree.slotsFrom rule total rest).failure⟩ := by
  induction hentries with
  | nil => rfl
  | empty _ ih =>
    rw [slotsFrom, if_pos rfl, ih]
    rfl
  | @reference raw phandle i args cells entries rest hraw hfound hcount _ ih =>
    obtain ⟨ref, href⟩ := h.exists_of_findPhandle hfound
    have hzero : raw ≠ 0 := by
      rw [← Phandle.ofRaw?_eq_some_iff.1 hraw]
      exact phandle.ne_zero
    have hreference : tree.reference rule raw = .ok (ref, args.length) :=
      h.reference_eq_ok_iff.2 ⟨phandle, i, hraw, hfound, href, hcount⟩
    have hslot : tree.slotOf (some ⟨i, args⟩) = .reference ref args := by
      rw [slotOf, List.getD_eq_getElem?_getD, href, Option.getD_some]
    rw [slotsFrom, if_neg hzero, hreference]
    dsimp only
    rw [if_neg (by simp), List.drop_left, List.take_left, ih, List.map_cons, hslot]
    rfl

/-- Every list can be read up to its end or to its first malformed entry. -/
theorem exists_entriesOf (h : tree.Stores doc) (rule : ArgumentCount) (total : Nat)
    (cells : List UInt32) :
    ∃ entries rest, EntriesOf doc rule cells entries rest ∧
      (tree.slotsFrom rule total rest).slots = [] := by
  fun_induction slotsFrom tree rule total cells with
  | case1 => exact ⟨[], [], .nil, by rw [slotsFrom]⟩
  | case2 rest ih =>
    obtain ⟨entries, rest', hentries, hslots⟩ := ih
    exact ⟨none :: entries, rest', .empty hentries, hslots⟩
  | case3 raw rest hzero e hreference =>
    refine ⟨[], raw :: rest, .nil, ?_⟩
    rw [slotsFrom, if_neg hzero, hreference]
  | case4 raw rest hzero ref count hreference hshort =>
    refine ⟨[], raw :: rest, .nil, ?_⟩
    rw [slotsFrom, if_neg hzero, hreference]
    exact congrArg SlotList.slots (if_pos hshort)
  | case5 raw rest hzero ref count hreference hlong ih =>
    obtain ⟨entries, rest', hentries, hslots⟩ := ih
    obtain ⟨phandle, i, hraw, hfound, -, hcount⟩ := h.reference_eq_ok_iff.1 hreference
    have hlength : (rest.take count).length = count := by
      rw [List.length_take]
      omega
    have hall := EntriesOf.reference hraw hfound (hlength.symm ▸ hcount) hentries
    rw [List.take_append_drop] at hall
    exact ⟨_, rest', hall, hslots⟩

/-- The entries that a tree reads from a node's list are those of the document. -/
theorem readSlots_getElem? (h : tree.Stores doc) {i k : Nat} {ref : NodeRef} {property : Bytes}
    {list : SlotList} {slot : Slot} (href : tree.nodes[i]? = some ref)
    (hlist : tree.readSlots ref property rule = .ok list) :
    list.slots[k]? = some slot ↔
      ∃ entry, doc.HasEntry rule property i k entry ∧ tree.slotOf entry = slot := by
  rw [readSlots, h.cells href] at hlist
  cases hcells : doc.cells i property with
  | error e => rw [hcells] at hlist; cases hlist
  | ok found =>
    rw [hcells] at hlist
    cases found with
    | none => cases hlist
    | some cells =>
      cases hlist
      constructor
      · intro hslot
        obtain ⟨entries, rest, hentries, hrest⟩ := h.exists_entriesOf rule cells.length cells
        rw [h.slotsFrom_of_entriesOf hentries, hrest, List.append_nil, List.getElem?_map] at hslot
        obtain ⟨entry, hentry, rfl⟩ := Option.map_eq_some_iff.1 hslot
        exact ⟨entry, ⟨cells, entries, rest, hcells, hentries, hentry⟩, rfl⟩
      · rintro ⟨entry, ⟨cells', entries, rest, hcells', hentries, hentry⟩, rfl⟩
        rw [hcells, Except.ok.injEq, Option.some.injEq] at hcells'
        subst hcells'
        obtain ⟨hlt, -⟩ := List.getElem?_eq_some_iff.1 hentry
        rw [h.slotsFrom_of_entriesOf hentries, List.getElem?_append_left (by simpa using hlt),
          List.getElem?_map, hentry]
        rfl

end Tree.Stores

end BootTree
