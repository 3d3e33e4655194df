import BootTree.Proofs.Fixup.Leading
import BootTree.Proofs.Setup.Confined
import BootTree.Proofs.Setup.Retained
import BootTree.Proofs.Tree.AddChild
import BootTree.Setup.Run

/-!
# BootTree.Proofs.Setup.Traceable

A tree in the middle of the setup. Its steps go by places and paths in a tree that earlier steps have
edited; said of node numbers, each of them starts with all nodes of the first document still there
and writes at those of them that its path has led to from the beginning.

* `Setup.Preserved`: a tree in the middle of the setup; `Setup.Followed`: paths to old nodes led there
  before.
* `Setup.Preserved.setGrowing`, `Setup.Preserved.added`, `Setup.Preserved.reserve`: one edit.
* `Setup.Traceable`, `Setup.Found`, `Setup.Reached`: what holds between the steps of a run.
* `Setup.leads_childOfRoot`, `Setup.leads_childOfFound`, `Setup.leads_setGrowing_found`,
  `Setup.leads_setGrowing_reached`: nodes by their paths, and their properties.
-/

namespace BootTree

namespace Setup

open Blob

/-- The names of the properties that the setup may add where they are missing, and `reg`. -/
def writtenNames : List Bytes :=
  ["status", "reg", "dma-channel-mask", "kaslr-seed", "compatible", "method"]

theorem not_mem_of_mem_writtenNames {name : Bytes} (h : name ∈ writtenNames) : 0 ∉ name := by
  have hall : ∀ name ∈ writtenNames, 0 ∉ name := by decide +kernel
  exact hall name h

/-- A tree in the middle of the setup. It stores a document with all nodes of the first one, and it
has room for the names that the setup writes. -/
structure Preserved (soc : Soc) (first : Tree) (doc₀ : Document) (tree : Tree) (doc : Document)
    (place : Nat → Nat) : Prop where
  stores : tree.Stores doc
  kept : Kept (fun i => Retained (MayChange soc doc₀ i)) doc₀ doc place
  room : tree.sizeWith writtenNames < 2 ^ 32
  reserved : first.reserved <+: tree.reserved

/-- A path that leads to an old node has led there from the beginning. -/
def Followed (doc₀ doc : Document) (place : Nat → Nat) : Prop :=
  ∀ path i, doc.find? path = some (place i) → doc₀.find? path = some i

variable {soc : Soc} {first tree tree' : Tree} {doc₀ doc doc' : Document} {place place' : Nat → Nat}
  {n : Nat} {ref : NodeRef} {name value path : Bytes}

/-! ## One step -/

/-- The names take fewer bytes than the header, the end of the reservations and one token. -/
theorem sizeWith_le_totalSize (h : tree.Stores doc) :
    tree.sizeWith writtenNames ≤ tree.totalSize := by
  have hcosts : (writtenNames.map tree.nameCost).sum ≤
      (writtenNames.map fun name => name.length + 1).sum := by
    apply List.sum_le_sum
    intro name _
    exact tree.nameCost_le name
  have hnames : (writtenNames.map fun name => name.length + 1).sum = headerSize + entrySize + 1 := by
    decide +kernel
  have hblock := h.size_le_length
  have hroot : 0 < doc.forest.size := Nat.succ_pos _
  simp only [Tree.sizeWith, Tree.totalSize, Tree.usedSize, Tree.stringsOffset, Tree.structOffset,
    Nat.mul_add, Nat.mul_one]
  omega

namespace Preserved

theorem start (hdoc : tree.Stores doc) (hsize : tree.totalSize < 2 ^ 32) :
    Preserved soc tree doc tree doc id :=
  ⟨hdoc, .refl doc fun _ => .refl _, Nat.lt_of_le_of_lt (sizeWith_le_totalSize hdoc) hsize,
    List.prefix_refl _⟩

theorem holds (h : Preserved soc first doc₀ tree doc place) (hname : name ∈ writtenNames) :
    Tree.Holds name tree doc :=
  ⟨h.stores, Nat.lt_of_le_of_lt (Tree.nameCost_le_sizeWith hname) h.room⟩

theorem withFree (h : Preserved soc first doc₀ tree doc place) (free : Nat) :
    Preserved soc first doc₀ (tree.withFree free) doc place :=
  ⟨h.stores, h.kept, h.room, h.reserved⟩

theorem step {may : Nat → Bytes → Bytes → Prop} (h : Preserved soc first doc₀ tree doc place)
    (hstores : tree'.Stores doc') (hkept : Kept (fun i => Retained (may i)) doc doc' place')
    (hmay : ∀ i name value, may (place i) name value → MayChange soc doc₀ i name value)
    (hconfined : Confined writtenNames tree tree') :
    Preserved soc first doc₀ tree' doc' fun i => place' (place i) := by
  refine ⟨hstores, h.kept.trans hkept ?_, Nat.lt_of_le_of_lt hconfined.size h.room,
    h.reserved.trans hconfined.reserved⟩
  intro i before mid after hbefore hafter
  exact hbefore.trans (hafter.mono (hmay i))

/-- A property is set, or nothing but the free space changes. -/
theorem setGrowing (h : Preserved soc first doc₀ tree doc place) (href : tree.nodes[n]? = some ref)
    (hname : name ∈ writtenNames) (hmask : name ≠ Bytes.ofText "dma-channel-mask")
    (hvalue : value.length < 2 ^ 32)
    (hmay : ∀ i, place i = n → MayChange soc doc₀ i name value) :
    ∃ outcome tree' doc', (setGrowing ref name value).result tree = (outcome, tree') ∧
      Preserved soc first doc₀ tree' doc' place ∧ (∀ path, doc'.find? path = doc.find? path) ∧
      tree'.nodes[n]? = some ref := by
  obtain ⟨node, pre, body, inner, post, hat⟩ := h.stores.exists_storedAt href
  have hoffset := (h.holds hname).nameOffset_lt name
  rcases hat.result_setGrowing (not_mem_of_mem_writtenNames hname) hvalue hoffset with
    ⟨tree', hresult, hupdated⟩ | ⟨-, -, e, free, hresult⟩
  · refine ⟨.ok (), tree', doc.alter (withValue name value) id n, hresult, ?_,
      Document.find?_alter _ doc n, hupdated.shifted.getElem? href⟩
    refine h.step hupdated.stores (Document.kept_withValue hat.cut.lt_size hmask value) ?_
      (.ofName (.inl hname) hupdated.strings hupdated.reservations)
    rintro i _ _ ⟨hplace, rfl, rfl⟩
    exact hmay i hplace
  · exact ⟨.error e, tree.withFree free, doc, hresult, h.withFree free, fun _ => rfl, href⟩

theorem added (h : Preserved soc first doc₀ tree doc place) {child : NodeRef}
    (hadded : Tree.Added tree tree' doc n ref name child) (hn : n < doc.forest.size) :
    Preserved soc first doc₀ tree' (doc.withChild n name) fun i => placeBeside n (place i) := by
  have hkept : Kept (fun _ => Retained fun _ _ => False) doc (doc.withChild n name)
      (placeBeside n) := by
    have hchild := Document.kept_withChild name hn
    refine ⟨hchild.ordered, hchild.entry, hchild.parent, ?_⟩
    intro i hi
    rw [hchild.properties i hi]
    exact .refl _ _
  apply h.step hadded.stores hkept
  · intro _ _ _ hnever
    exact hnever.elim
  · refine .ofStrings hadded.strings ?_
    rw [Tree.reserved, Tree.reserved, hadded.reservations]

theorem reserve (h : Preserved soc first doc₀ tree doc place) (memory : Reservation) :
    Preserved soc first doc₀ ((withGrowth (Tree.reserve memory)).result tree).2 doc place := by
  rcases (Tree.atomic_reserve memory).result_withGrowth tree with
    ⟨e, free, hresult⟩ | ⟨_, free, tree', hreserve, hresult⟩
  · rw [hresult]
    exact h.withFree free
  · rw [hresult]
    unfold Tree.reserve at hreserve
    split at hreserve
    · cases hreserve
    · cases hreserve
      have hgrown := h.withFree free
      have hconfined : Confined writtenNames (tree.withFree free) { tree.withFree free with
          reservations := tree.reservations ++ [memory]
          free := free - entrySize } := .reservations_append rfl rfl
      exact ⟨h.stores, h.kept, h.room, h.reserved.trans hconfined.reserved⟩

end Preserved

/-! ## Steps in a row -/

/-- The old nodes are all there. -/
def Unharmed (soc : Soc) (first : Tree) (doc₀ : Document) (tree : Tree) : Prop :=
  ∃ doc place, Preserved soc first doc₀ tree doc place

/-- The old nodes are all there, and paths still tell which of them are which. -/
def Traceable (soc : Soc) (first : Tree) (doc₀ : Document) (tree : Tree) : Prop :=
  ∃ doc place, Preserved soc first doc₀ tree doc place ∧ Followed doc₀ doc place

theorem Traceable.unharmed (h : Traceable soc first doc₀ tree) : Unharmed soc first doc₀ tree := by
  obtain ⟨doc, place, hpreserved, -⟩ := h
  exact ⟨doc, place, hpreserved⟩

/-- A node that a path leads to. -/
structure Found (soc : Soc) (first : Tree) (doc₀ : Document) (path : Bytes) (ref : NodeRef)
    (tree : Tree) : Prop where
  traceable : Traceable soc first doc₀ tree
  resolve : tree.resolve path = .ok (some ref)

/-- A node that is none of the old ones, or the one that a path has led to from the beginning. -/
def Reached (soc : Soc) (first : Tree) (doc₀ : Document) (path : Bytes) (ref : NodeRef)
    (tree : Tree) : Prop :=
  ∃ doc place n, Preserved soc first doc₀ tree doc place ∧ tree.nodes[n]? = some ref ∧
    ∀ i, place i = n → doc₀.find? path = some i

theorem Traceable.withFree (h : Traceable soc first doc₀ tree) (free : Nat) :
    Traceable soc first doc₀ (tree.withFree free) := by
  obtain ⟨doc, place, hpreserved, hfollowed⟩ := h
  exact ⟨doc, place, hpreserved.withFree free, hfollowed⟩

theorem Reached.unharmed (h : Reached soc first doc₀ path ref tree) :
    Unharmed soc first doc₀ tree := by
  obtain ⟨doc, place, _, hpreserved, -⟩ := h
  exact ⟨doc, place, hpreserved⟩

/-! ### Nodes -/

theorem Found.reached (h : Found soc first doc₀ path ref tree) :
    Reached soc first doc₀ path ref tree := by
  obtain ⟨⟨doc, place, hpreserved, hfollowed⟩, hresolve⟩ := h
  obtain ⟨n, hfind, href⟩ := hpreserved.stores.exists_of_resolve hresolve
  refine ⟨doc, place, n, hpreserved, href, ?_⟩
  rintro i rfl
  exact hfollowed path i hfind

theorem leads_root : Attempt.Leads (Traceable soc first doc₀) (Attempt.ask Tree.root)
    (Found soc first doc₀ "/") (Traceable soc first doc₀) := by
  apply Attempt.Leads.ask
  · intro tree root htraceable hroot
    refine ⟨htraceable, ?_⟩
    have hslash : (Bytes.ofText "/").head? = some slash := by rfl
    have hpath : Tree.components "/" = [] := by rfl
    rw [Tree.resolve, if_neg (by simp [hslash]), hroot, hpath]
    rfl
  · exact fun _ => id

/-- A child of the root, which may be a new node. -/
theorem leads_childOfRoot (htext : Bytes.isText name = true) (hslash : path.head? = some slash)
    (hpath : Tree.components path = [name]) :
    Attempt.Leads (Found soc first doc₀ "/" ref) (childOrAdd ref name) (Found soc first doc₀ path)
      (Traceable soc first doc₀) := by
  rintro tree ⟨⟨doc, place, hpreserved, hfollowed⟩, hresolve⟩
  obtain ⟨root, href, hroot⟩ := hpreserved.stores.root
  have hrooted : Tree.components "/" = [] := by rfl
  obtain rfl : root = ref := by
    have hslash := Tree.head?_of_resolve hresolve
    rw [Tree.resolve, if_neg (by simp [hslash]), hroot, hrooted] at hresolve
    simpa [Tree.descend] using hresolve
  rcases hpreserved.stores.result_childOrAdd href htext with
    ⟨e, free, hresult⟩ | ⟨child, hresult, hchild⟩ | ⟨child, tree', hresult, hadded⟩
  · exact .inr ⟨e, _, hresult, doc, place, hpreserved.withFree free, hfollowed⟩
  · refine .inl ⟨child, tree, hresult, ⟨doc, place, hpreserved, hfollowed⟩, ?_⟩
    exact Tree.resolve_concat hresolve hchild hslash (by rw [hpath, hrooted]; rfl)
  · have hpos : 0 < doc.forest.size := Nat.succ_pos _
    have hpreserved' := hpreserved.added hadded hpos
    refine .inl ⟨child, tree', hresult, ⟨_, _, hpreserved', ?_⟩, ?_⟩
    · intro other i hfind
      exact hfollowed other i (Document.find?_of_withChild hfind)
    · have hname : nameMatches name name = true := by simp [nameMatches]
      have hfind : (doc.withChild 0 name).find? path = some 1 := by
        rw [Document.find?, if_pos hslash, hpath]
        change (Forest.node name [] .nil doc.children).descend 0 [name] = some 1
        rw [Forest.descend, Forest.child?, if_pos hname]
        rfl
      rw [hadded.stores.resolve hslash, hfind, Option.bind_some, hadded.atChild]

/-- A child of a node that a path leads to. If it is new then it is none of the old ones. -/
theorem leads_childOfFound {path' : Bytes} (htext : Bytes.isText name = true)
    (hslash : path'.head? = some slash)
    (hpath : Tree.components path' = Tree.components path ++ [name]) :
    Attempt.Leads (Found soc first doc₀ path ref) (childOrAdd ref name)
      (Reached soc first doc₀ path') (Traceable soc first doc₀) := by
  rintro tree ⟨⟨doc, place, hpreserved, hfollowed⟩, hresolve⟩
  obtain ⟨n, -, href⟩ := hpreserved.stores.exists_of_resolve hresolve
  rcases hpreserved.stores.result_childOrAdd href htext with
    ⟨e, free, hresult⟩ | ⟨child, hresult, hchild⟩ | ⟨child, tree', hresult, hadded⟩
  · exact .inr ⟨e, _, hresult, doc, place, hpreserved.withFree free, hfollowed⟩
  · have hfound : Found soc first doc₀ path' child tree :=
      ⟨⟨doc, place, hpreserved, hfollowed⟩, Tree.resolve_concat hresolve hchild hslash hpath⟩
    exact .inl ⟨child, tree, hresult, hfound.reached⟩
  · have hn : n < doc.forest.size := by
      rw [← hpreserved.stores.length_nodes]
      exact (List.getElem?_eq_some_iff.1 href).1
    refine .inl ⟨child, tree', hresult, _, _, n + 1, hpreserved.added hadded hn, hadded.atChild, ?_⟩
    intro i hplace
    exact absurd hplace (placeBeside_ne n (place i))

/-! ### Properties -/

theorem leads_setGrowing_found (hname : name ∈ writtenNames)
    (hmask : name ≠ Bytes.ofText "dma-channel-mask") (hvalue : value.length < 2 ^ 32)
    (hmay : ∀ i, doc₀.find? path = some i → MayChange soc doc₀ i name value) :
    Attempt.Leads (Found soc first doc₀ path ref) (setGrowing ref name value)
      (fun _ => Traceable soc first doc₀) (Traceable soc first doc₀) := by
  apply Attempt.Leads.ofAfter
  rintro tree ⟨⟨doc, place, hpreserved, hfollowed⟩, hresolve⟩
  obtain ⟨n, hfind, href⟩ := hpreserved.stores.exists_of_resolve hresolve
  obtain ⟨outcome, tree', doc', hresult, hpreserved', hsame, -⟩ :=
    hpreserved.setGrowing href hname hmask hvalue (by
      rintro i rfl
      exact hmay i (hfollowed path i hfind))
  rw [hresult]
  refine ⟨doc', place, hpreserved', ?_⟩
  intro other i hother
  exact hfollowed other i ((hsame other).symm.trans hother)

theorem leads_setGrowing_reached (hname : name ∈ writtenNames)
    (hmask : name ≠ Bytes.ofText "dma-channel-mask") (hvalue : value.length < 2 ^ 32)
    (hmay : ∀ i, doc₀.find? path = some i → MayChange soc doc₀ i name value) :
    Attempt.Leads (Reached soc first doc₀ path ref) (setGrowing ref name value)
      (fun _ => Reached soc first doc₀ path ref) (Reached soc first doc₀ path ref) := by
  apply Attempt.Leads.ofAfter
  rintro tree ⟨doc, place, n, hpreserved, href, hreached⟩
  obtain ⟨outcome, tree', doc', hresult, hpreserved', -, href'⟩ :=
    hpreserved.setGrowing href hname hmask hvalue fun i hplace => hmay i (hreached i hplace)
  rw [hresult]
  exact ⟨doc', place, n, hpreserved', href', hreached⟩

end Setup

end BootTree
