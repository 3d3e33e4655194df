import BootTree.Proofs.Tree.Visits
import BootTree.Tree.Phandle

/-!
# BootTree.Proofs.Document.Queries

What can be asked about the nodes of a document, errors included.

* `Document.cell`, `Document.isEnabled`, `Document.isCompatible`: questions about one node.
* `Document.findPhandle`: the first node that carries a phandle.
* `EntriesOf`: the entries of a list of references; `EntriesOf.isPrefix`.
* `SameButStatus`: documents that differ in statuses only, which answer alike.
-/

namespace BootTree

/-! ## Questions -/

namespace Document

variable (doc : Document)

/-- The properties of a node; there are none where there is no node. -/
def propertiesAt (i : Nat) : List Property := (doc.properties? i).getD []

def value? (i : Nat) (name : Bytes) : Option Bytes := valueOf? (doc.propertiesAt i) name

def cell (i : Nat) (name : Bytes) : Except TreeError (Option UInt32) :=
  readAs Tree.singleCell (doc.propertiesAt i) name

def cells (i : Nat) (name : Bytes) : Except TreeError (Option (List UInt32)) :=
  readAs Cells.decode (doc.propertiesAt i) name

def isEnabled (i : Nat) : Bool :=
  match readAs StringList.text (doc.propertiesAt i) "status" with
  | .ok none => true
  | .ok (some status) => status = Bytes.ofText "okay" || status = Bytes.ofText "ok"
  | .error _ => false

def isCompatible (i : Nat) (compatible : Bytes) : Bool :=
  match doc.value? i "compatible" with
  | some list => (StringList.texts list).contains compatible
  | none => false

/-- The phandle that a node carries. -/
def phandleOf (i : Nat) : Except TreeError (Option Phandle) :=
  match doc.cell i "phandle" with
  | .error e => .error e
  | .ok (some raw) => .ok (Phandle.ofRaw? raw)
  | .ok none => (doc.cell i "linux,phandle").map (·.bind Phandle.ofRaw?)

/-- The first node that carries a phandle. A malformed phandle in front of it is an error. -/
def findPhandle (phandle : Phandle) : Except TreeError (Option Nat) :=
  (List.range doc.forest.size).findM? fun i =>
    (doc.phandleOf i).map fun found => decide (found = some phandle)

def findRaw (raw : UInt32) : Except TreeError (Option Nat) :=
  match Phandle.ofRaw? raw with
  | none => .ok none
  | some phandle => doc.findPhandle phandle

/-- How many cells follow a reference to a node. -/
def argumentCount (i : Nat) : ArgumentCount → Except TreeError Nat
  | .fixed count => .ok count
  | .declaredBy property =>
    match doc.cell i property with
    | .ok (some count) => .ok count.toNat
    | .ok none | .error (.badValue _) => .error .badCellCount
    | .error e => .error e

/-- Every phandle is a single cell. -/
def PhandlesAreCells : Prop :=
  ∀ i name, name = Bytes.ofText "phandle" ∨ name = Bytes.ofText "linux,phandle" →
    ∀ raw, doc.value? i name = some raw → raw.length = 4

variable {doc}

theorem propertiesAt_alter (p : List Property → List Property) {i : Nat} (hi : i < doc.forest.size)
    (j : Nat) :
    (doc.alter p id i).propertiesAt j =
      if i = j then p (doc.propertiesAt j) else doc.propertiesAt j := by
  rw [propertiesAt, properties?_alter _ _ _ _ hi, propertiesAt]
  by_cases hij : i = j
  · subst hij
    obtain ⟨node, hnode⟩ := Option.isSome_iff_exists.1 (Forest.node?_isSome_iff.2 hi)
    rw [if_pos rfl, if_pos rfl, properties?, node?, hnode]
    rfl
  · rw [if_neg hij, if_neg hij]

end Document

/-- An entry of a list of references that names a node. -/
structure Reference where
  node : Nat
  args : List UInt32
  deriving DecidableEq, Repr

section Lists

variable (doc : Document) (rule : ArgumentCount)

/-- Cells that begin with these entries of a list of references, and the cells behind them. -/
inductive EntriesOf : List UInt32 → List (Option Reference) → List UInt32 → Prop where
  | nil {rest} : EntriesOf rest [] rest
  | empty {cells entries rest} : EntriesOf cells entries rest →
      EntriesOf (0 :: cells) (none :: entries) rest
  | reference {raw phandle node args cells entries rest} : Phandle.ofRaw? raw = some phandle →
      doc.findPhandle phandle = .ok (some node) → doc.argumentCount node rule = .ok args.length →
      EntriesOf cells entries rest →
      EntriesOf (raw :: (args ++ cells)) (some ⟨node, args⟩ :: entries) rest

end Lists

theorem EntriesOf.length_le {doc : Document} {rule : ArgumentCount} {cells rest : List UInt32}
    {entries : List (Option Reference)} (h : EntriesOf doc rule cells entries rest) :
    entries.length ≤ cells.length := by
  induction h with
  | nil => exact Nat.zero_le _
  | empty _ ih => simpa using ih
  | reference _ _ _ _ ih =>
    simp only [List.length_cons, List.length_append]
    omega

/-- A list without malformed entries begins with an empty entry or with a reference. -/
theorem EntriesOf.cons_inv {doc : Document} {rule : ArgumentCount} {raw : UInt32}
    {tail : List UInt32} {entries : List (Option Reference)}
    (h : EntriesOf doc rule (raw :: tail) entries []) :
    (raw = 0 ∧ ∃ behind, entries = none :: behind ∧ EntriesOf doc rule tail behind []) ∨
      ∃ phandle node args cells behind, Phandle.ofRaw? raw = some phandle ∧
        doc.findPhandle phandle = .ok (some node) ∧
        doc.argumentCount node rule = .ok args.length ∧ tail = args ++ cells ∧
        entries = some ⟨node, args⟩ :: behind ∧ EntriesOf doc rule cells behind [] := by
  generalize hall : raw :: tail = all at h
  generalize hend : ([] : List UInt32) = rest at h
  cases h with
  | nil => cases hall.trans hend.symm
  | empty hbehind =>
    cases hall
    exact .inl ⟨rfl, _, rfl, hend ▸ hbehind⟩
  | reference hraw hfound hcount hbehind =>
    cases hall
    exact .inr ⟨_, _, _, _, _, hraw, hfound, hcount, rfl, rfl, hend ▸ hbehind⟩

/-- A list has one way to be read: whoever stops earlier has read the same entries. -/
theorem EntriesOf.isPrefix {doc : Document} {rule : ArgumentCount} {cells rest : List UInt32}
    {entries entries' : List (Option Reference)} (h : EntriesOf doc rule cells entries [])
    (h' : EntriesOf doc rule cells entries' rest) : entries' <+: entries := by
  induction h' generalizing entries with
  | nil => exact List.nil_prefix
  | empty _ ih =>
    rcases h.cons_inv with ⟨-, behind, rfl, hbehind⟩ | ⟨phandle, _, _, _, _, hraw, -⟩
    · exact List.cons_prefix_cons.2 ⟨rfl, ih hbehind⟩
    · cases hraw
  | reference hraw hfound hcount _ ih =>
    rcases h.cons_inv with
      ⟨rfl, -⟩ | ⟨phandle, node, args, cells, behind, hraw', hfound', hcount', htail, rfl, hbehind⟩
    · cases hraw
    · -- node and number of arguments are determined by the reference
      rw [hraw, Option.some.injEq] at hraw'
      subst hraw'
      rw [hfound, Except.ok.injEq, Option.some.injEq] at hfound'
      subst hfound'
      rw [hcount, Except.ok.injEq] at hcount'
      obtain ⟨rfl, rfl⟩ := List.append_inj htail hcount'
      exact List.cons_prefix_cons.2 ⟨rfl, ih hbehind⟩

/-- The entry at an index of a node's list of references. -/
def Document.HasEntry (doc : Document) (rule : ArgumentCount) (property : Bytes) (i k : Nat)
    (entry : Option Reference) : Prop :=
  ∃ cells entries rest, doc.cells i property = .ok (some cells) ∧
    EntriesOf doc rule cells entries rest ∧ entries[k]? = some entry

/-- The entries of a list without malformed ones are what it consists of. -/
theorem Document.hasEntry_iff {doc : Document} {rule : ArgumentCount} {property : Bytes} {i k : Nat}
    {cells : List UInt32} {entries : List (Option Reference)} {entry : Option Reference}
    (hcells : doc.cells i property = .ok (some cells)) (h : EntriesOf doc rule cells entries []) :
    doc.HasEntry rule property i k entry ↔ entries[k]? = some entry := by
  constructor
  · rintro ⟨cells', entries', rest, hcells', h', hentry⟩
    rw [hcells, Except.ok.injEq, Option.some.injEq] at hcells'
    subst hcells'
    obtain ⟨behind, rfl⟩ := h.isPrefix h'
    obtain ⟨hlt, -⟩ := List.getElem?_eq_some_iff.1 hentry
    rw [List.getElem?_append_left hlt, hentry]
  · intro hentry
    exact ⟨cells, entries, [], hcells, h, hentry⟩

/-! ## Searching -/

theorem of_findM? {ε α : Type} {p : α → Except ε Bool} {l : List α} {a : α}
    (h : l.findM? p = .ok (some a)) : a ∈ l ∧ p a = .ok true := by
  induction l with
  | nil => cases h
  | cons b bs ih =>
    rw [List.findM?] at h
    cases hb : p b with
    | error e => rw [hb] at h; cases h
    | ok found =>
      rw [hb] at h
      cases found with
      | true => cases h; exact ⟨List.mem_cons_self, hb⟩
      | false => exact ⟨List.mem_cons_of_mem _ (ih h).1, (ih h).2⟩

theorem findM?_isOk {ε α : Type} {p : α → Except ε Bool} {l : List α}
    (h : ∀ a ∈ l, ∃ b, p a = .ok b) : ∃ found, l.findM? p = .ok found := by
  induction l with
  | nil => exact ⟨none, rfl⟩
  | cons a as ih =>
    obtain ⟨b, hb⟩ := h a List.mem_cons_self
    rw [List.findM?, hb]
    cases b with
    | true => exact ⟨some a, rfl⟩
    | false =>
      apply ih
      intro c hc
      exact h c (List.mem_cons_of_mem _ hc)

/-! ## Single cells -/

theorem singleCell_of_length {raw : Bytes} (h : raw.length = 4) :
    Tree.singleCell raw = .ok ((Bytes.word? raw).getD 0) := by
  obtain ⟨word, hword⟩ := Option.isSome_iff_exists.1 (Bytes.word?_isSome_iff.2 (Nat.le_of_eq h.symm))
  have hraw := Bytes.eq_word_append_of_word? hword
  rw [List.drop_of_length_le (Nat.le_of_eq h), List.append_nil] at hraw
  have hdecode := Cells.decode_encode [word]
  rw [Cells.encode, List.flatMap_singleton, ← hraw] at hdecode
  rw [Tree.singleCell, hdecode, hword, Option.getD_some]

theorem singleCell_of_length_ne {raw : Bytes} (h : raw.length ≠ 4) :
    Tree.singleCell raw = .error .partialCell := by
  rw [Tree.singleCell]
  split
  · rename_i cell hdecode
    have := congrArg List.length (Cells.encode_of_decode hdecode)
    rw [Cells.length_encode] at this
    exact absurd this.symm h
  · rfl

namespace Document

variable {doc : Document}

theorem lt_of_findPhandle {phandle : Phandle} {i : Nat}
    (h : doc.findPhandle phandle = .ok (some i)) : i < doc.forest.size :=
  List.mem_range.1 (of_findM? h).1

theorem value?_of_size_le {i : Nat} (h : doc.forest.size ≤ i) (name : Bytes) :
    doc.value? i name = none := by
  have hnone : doc.node? i = none := by
    rw [← Option.not_isSome_iff_eq_none, node?, Forest.node?_isSome_iff]
    exact Nat.not_lt.2 h
  rw [value?, propertiesAt, properties?, hnone]
  rfl

theorem phandlesAreCells_iff :
    doc.PhandlesAreCells ↔ ∀ i < doc.forest.size,
      ∀ name ∈ [Bytes.ofText "phandle", Bytes.ofText "linux,phandle"],
        (doc.value? i name).all (·.length = 4) := by
  simp only [Option.all_eq_true, List.mem_cons, List.not_mem_nil, or_false, decide_eq_true_eq]
  constructor
  · intro h i _
    exact h i
  · intro h i name hname raw hvalue
    by_cases hi : i < doc.forest.size
    · exact h i hi name hname raw hvalue
    · rw [value?_of_size_le (Nat.le_of_not_lt hi)] at hvalue
      cases hvalue

instance : Decidable doc.PhandlesAreCells := decidable_of_iff _ phandlesAreCells_iff.symm

theorem PhandlesAreCells.cell (h : doc.PhandlesAreCells) (i : Nat) {name : Bytes}
    (hname : name = Bytes.ofText "phandle" ∨ name = Bytes.ofText "linux,phandle") :
    ∃ cell, doc.cell i name = .ok cell := by
  rw [Document.cell, readAs]
  cases hvalue : valueOf? (doc.propertiesAt i) name with
  | none => exact ⟨none, rfl⟩
  | some raw =>
    dsimp only
    rw [singleCell_of_length (h i name hname raw hvalue)]
    exact ⟨_, rfl⟩

theorem PhandlesAreCells.phandleOf (h : doc.PhandlesAreCells) (i : Nat) :
    ∃ found, doc.phandleOf i = .ok found := by
  obtain ⟨cell, hcell⟩ := h.cell i (.inl rfl)
  obtain ⟨linux, hlinux⟩ := h.cell i (.inr rfl)
  rw [Document.phandleOf, hcell]
  cases cell with
  | some raw => exact ⟨_, rfl⟩
  | none =>
    rw [hlinux]
    exact ⟨_, rfl⟩

/-- Where every phandle is a single cell, no search for one fails. -/
theorem PhandlesAreCells.findRaw (h : doc.PhandlesAreCells) (raw : UInt32) :
    ∃ found, doc.findRaw raw = .ok found := by
  rw [Document.findRaw]
  cases Phandle.ofRaw? raw with
  | none => exact ⟨none, rfl⟩
  | some phandle =>
    apply findM?_isOk
    intro i _
    obtain ⟨found, hfound⟩ := h.phandleOf i
    rw [hfound]
    exact ⟨_, rfl⟩

end Document

/-! ## Documents that differ in statuses -/

/-- Documents of the same nodes that differ at most in the values of `status` properties. -/
structure SameButStatus (doc doc' : Document) : Prop where
  outline : doc'.outline = doc.outline
  value? : ∀ i name, name ≠ Bytes.ofText "status" → doc'.value? i name = doc.value? i name

namespace SameButStatus

variable {doc doc' doc'' : Document}

theorem refl (doc : Document) : SameButStatus doc doc := ⟨rfl, fun _ _ _ => rfl⟩

theorem symm (h : SameButStatus doc doc') : SameButStatus doc' doc :=
  ⟨h.outline.symm, fun i name hname => (h.value? i name hname).symm⟩

theorem trans (h : SameButStatus doc doc') (h' : SameButStatus doc' doc'') :
    SameButStatus doc doc'' :=
  ⟨h'.outline.trans h.outline, fun i name hname =>
    (h'.value? i name hname).trans (h.value? i name hname)⟩

theorem size (h : SameButStatus doc doc') : doc'.forest.size = doc.forest.size := by
  have hlength := congrArg List.length h.outline
  simpa [Document.outline, Document.forest, Forest.size] using hlength

theorem depth? (h : SameButStatus doc doc') (i : Nat) : doc'.depth? i = doc.depth? i := by
  rw [Document.depth?, Document.depth?, h.outline]

theorem readAs {α : Type} (h : SameButStatus doc doc') (decode : Bytes → Except ValueError α)
    (i : Nat) {name : Bytes} (hname : name ≠ Bytes.ofText "status") :
    BootTree.readAs decode (doc'.propertiesAt i) name =
      BootTree.readAs decode (doc.propertiesAt i) name := by
  have hvalue := h.value? i name hname
  rw [Document.value?, Document.value?] at hvalue
  rw [BootTree.readAs, BootTree.readAs, hvalue]

theorem cell (h : SameButStatus doc doc') (i : Nat) {name : Bytes}
    (hname : name ≠ Bytes.ofText "status") : doc'.cell i name = doc.cell i name :=
  h.readAs Tree.singleCell i hname

theorem cells (h : SameButStatus doc doc') (i : Nat) {name : Bytes}
    (hname : name ≠ Bytes.ofText "status") : doc'.cells i name = doc.cells i name :=
  h.readAs Cells.decode i hname

theorem isCompatible (h : SameButStatus doc doc') (i : Nat) (compatible : Bytes) :
    doc'.isCompatible i compatible = doc.isCompatible i compatible := by
  rw [Document.isCompatible, Document.isCompatible, h.value? i _ (by simp)]

theorem phandleOf (h : SameButStatus doc doc') (i : Nat) :
    doc'.phandleOf i = doc.phandleOf i := by
  rw [Document.phandleOf, Document.phandleOf, h.cell i (by simp),
    h.cell i (by simp)]

theorem findPhandle (h : SameButStatus doc doc') (phandle : Phandle) :
    doc'.findPhandle phandle = doc.findPhandle phandle := by
  simp only [Document.findPhandle, h.size, h.phandleOf]

theorem findRaw (h : SameButStatus doc doc') (raw : UInt32) :
    doc'.findRaw raw = doc.findRaw raw := by
  simp only [Document.findRaw, h.findPhandle]

theorem argumentCount (h : SameButStatus doc doc') (i : Nat) {rule : ArgumentCount}
    (hrule : ∀ property, rule = .declaredBy property → property ≠ Bytes.ofText "status") :
    doc'.argumentCount i rule = doc.argumentCount i rule := by
  cases rule with
  | fixed count => rfl
  | declaredBy property =>
    rw [Document.argumentCount, Document.argumentCount, h.cell i (hrule property rfl)]

theorem entriesOf (h : SameButStatus doc doc') {rule : ArgumentCount}
    (hrule : ∀ property, rule = .declaredBy property → property ≠ Bytes.ofText "status")
    {cells rest : List UInt32} {entries : List (Option Reference)}
    (hentries : EntriesOf doc rule cells entries rest) : EntriesOf doc' rule cells entries rest := by
  induction hentries with
  | nil => exact .nil
  | empty _ ih => exact .empty ih
  | reference hraw hfound hcount _ ih =>
    exact .reference hraw ((h.findPhandle _).trans hfound)
      ((h.argumentCount _ hrule).trans hcount) ih

theorem hasEntry (h : SameButStatus doc doc') {rule : ArgumentCount}
    (hrule : ∀ property, rule = .declaredBy property → property ≠ Bytes.ofText "status")
    {property : Bytes} (hproperty : property ≠ Bytes.ofText "status") {i k : Nat}
    {entry : Option Reference} :
    doc'.HasEntry rule property i k entry ↔ doc.HasEntry rule property i k entry := by
  constructor
  · rintro ⟨cells, entries, rest, hcells, hentries, hentry⟩
    rw [h.cells i hproperty] at hcells
    exact ⟨cells, entries, rest, hcells, h.symm.entriesOf hrule hentries, hentry⟩
  · rintro ⟨cells, entries, rest, hcells, hentries, hentry⟩
    rw [← h.cells i hproperty] at hcells
    exact ⟨cells, entries, rest, hcells, h.entriesOf hrule hentries, hentry⟩

end SameButStatus

end BootTree
