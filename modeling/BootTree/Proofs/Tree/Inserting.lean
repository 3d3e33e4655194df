import BootTree.Proofs.Tree.AddChild
import BootTree.Proofs.Tree.Iteration

/-!
# BootTree.Proofs.Tree.Inserting

Adding a child, said of the document. The name is judged first, then the names of the other children
of the parent; those are the nodes that an iteration from the parent meets at depth one. The new node
stands in front of the first of them, so only the nodes behind the parent move.

* `Tree.isNodeName_iff`: what names may be.
* `Tree.StoredAt.namesake?`: the search for a child of the same name.
* `ShiftedBeside`: where nodes are when one more stands behind one of them.
* `Tree.Inserted`: a tree with one more node.
* `Tree.stores_addChild`: which children are refused, and what a new one changes.
-/

namespace BootTree

open Blob

/-- One more node stands behind the one with number `i`. The nodes up to `limit` keep their places,
and those behind it move by one multiple of four bytes. -/
def ShiftedBeside (i limit : Nat) (before after : List NodeRef) : Prop :=
  ∃ k, k % 4 = 0 ∧ after.length = before.length + 1 ∧ ∀ (j : Nat) (node : NodeRef),
    before[j]? = some node → after[placeBeside i j]? =
      some ⟨if node.offset ≤ limit then node.offset else node.offset + k⟩

theorem shiftedBeside_of_append {front : List NodeRef} {place w k : Nat} {new : NodeRef}
    {ts : List Token} (hfront : ∀ node ∈ front, node.offset < place) (hw : place < w)
    (hmod : k % 4 = 0) :
    ShiftedBeside front.length place (front ++ ⟨place⟩ :: begins w ts)
      (front ++ ⟨place⟩ :: new :: begins (k + w) ts) := by
  refine ⟨k, hmod, ?_, ?_⟩
  · rw [begins_add]
    simp only [List.length_append, List.length_cons, List.length_map]
    omega
  · intro j node hnode
    rcases Nat.lt_trichotomy j front.length with hj | rfl | hj
    · rw [List.getElem?_append_left hj] at hnode
      have hlt := hfront node (List.mem_of_getElem? hnode)
      rw [placeBeside_of_le (Nat.le_of_lt hj), List.getElem?_append_left hj, hnode,
        if_pos (Nat.le_of_lt hlt)]
    · rw [List.getElem?_append_right (Nat.le_refl _), Nat.sub_self, List.getElem?_cons_zero,
        Option.some.injEq] at hnode
      rw [placeBeside_of_le (Nat.le_refl _), List.getElem?_append_right (Nat.le_refl _), Nat.sub_self,
        List.getElem?_cons_zero, ← hnode, if_pos (Nat.le_refl _)]
    · obtain ⟨m, rfl⟩ := Nat.exists_eq_add_of_lt hj
      rw [List.getElem?_append_right (by omega), show front.length + m + 1 - front.length = m + 1 by
        omega, List.getElem?_cons_succ] at hnode
      have hbehind := (mem_begins (List.mem_of_getElem? hnode)).1
      rw [placeBeside_of_lt hj, List.getElem?_append_right (by omega),
        show front.length + m + 1 + 1 - front.length = m + 1 + 1 by omega, List.getElem?_cons_succ,
        List.getElem?_cons_succ, begins_add, List.getElem?_map, hnode, if_neg (by omega)]
      rw [Option.map_some, Nat.add_comm]

section Related

variable {α β : Type} {R : α → β → Prop} {as : List α} {bs : List β}

theorem exists_of_forall₂_left (h : List.Forall₂ R as bs) {a : α} (ha : a ∈ as) : ∃ b ∈ bs, R a b := by
  induction h with
  | nil => cases ha
  | cons hhead _ ih =>
    rcases List.mem_cons.1 ha with rfl | ha
    · exact ⟨_, List.mem_cons_self, hhead⟩
    · obtain ⟨b, hb, hrel⟩ := ih ha
      exact ⟨b, List.mem_cons_of_mem _ hb, hrel⟩

theorem exists_of_forall₂_right (h : List.Forall₂ R as bs) {b : β} (hb : b ∈ bs) : ∃ a ∈ as, R a b :=
  exists_of_forall₂_left h.flip hb

end Related

/-! ## The parent and its new child -/

theorem Forest.node?_alter_self {f : Forest} {i : Nat} {node : Node} {p : List Property → List Property}
    {c : Forest → Forest} (h : f.node? i = some node) :
    (f.alter p c i).node? i = some ⟨node.name, p node.properties, c node.children⟩ := by
  induction f generalizing i with
  | nil => cases h
  | node name properties children next ihc ihn =>
    cases i with
    | zero =>
      rw [node?, Option.some.injEq] at h
      subst h
      rfl
    | succ i =>
      rw [node?] at h
      rw [alter]
      by_cases hlt : i < children.size
      · rw [if_pos hlt] at h ⊢
        have hplaced : i < (children.alter p c i).size := by
          rw [← node?_isSome_iff, ihc h]
          rfl
        rw [node?, if_pos hplaced, ihc h]
      · rw [if_neg hlt] at h ⊢
        rw [node?, if_neg hlt, ihn h]

theorem Document.node?_withChild_self {doc : Document} {i : Nat} {node : Node} (name : Bytes)
    (h : doc.node? i = some node) : (doc.withChild i name).node? i =
      some ⟨node.name, node.properties, .node name [] .nil node.children⟩ := by
  have hlt : i < doc.forest.size := by
    rw [← Forest.node?_isSome_iff, ← node?, h]
    rfl
  rw [node?, forest_withChild name hlt]
  exact Forest.node?_alter_self h

namespace Tree

/-- The names that nodes may have. -/
theorem isNodeName_iff {name : Bytes} :
    isNodeName name = true ↔ ¬ (name = [] ∨ slash ∈ name ∨ 0 ∈ name) := by
  simp [isNodeName, and_assoc]

/-- A tree with one more node, empty and the first child of the node with number `i`. -/
structure Inserted (tree tree' : Tree) (doc : Document) (i : Nat) (ref : NodeRef) (name : Bytes)
    (child : NodeRef) : Prop where
  stores : ∀ doc', tree'.Stores doc' ↔ doc' = doc.withChild i name
  bootCpu : tree'.bootCpu = tree.bootCpu
  reservations : tree'.reservations = tree.reservations
  strings : tree'.strings = tree.strings
  maxSize : tree'.maxSize = tree.maxSize
  totalSize : tree'.totalSize = tree.totalSize
  place : tree'.nodes[i + 1]? = some child
  child? : tree'.child? ref name = .ok (some child)
  shifted : ShiftedBeside i ref.offset tree.nodes tree'.nodes

variable {tree tree' : Tree} {doc : Document} {i : Nat} {ref child : NodeRef} {name : Bytes}

namespace StoredAt

variable {node : Node} {pre body inner post : List Token}

/-- Adding a child, if its name has no zero and there is space. -/
theorem inserted (h : tree.StoredAt doc i ref node pre body inner post) (hname : 0 ∉ name)
    (htext : Bytes.isText name = true) (hfree : (emptyNode name).length ≤ tree.free) :
    Inserted tree (tree.spliced (width (pre ++ .beginNode node.name :: body)) 0 (emptyNode name)) doc i
      ref name ⟨width (pre ++ .beginNode node.name :: body)⟩ := by
  have hadded := h.added_spliced hname htext
  have hin := le_of_propertiesEnd h.propertiesEnd
  refine ⟨?_, rfl, rfl, rfl, rfl, totalSize_spliced hin (by omega), hadded.atChild, ?_, ?_⟩
  · intro doc'
    constructor
    · exact fun hstores => hstores.unique hadded.stores
    · rintro rfl
      exact hadded.stores
  · obtain ⟨parent, _, _, _, _, hat⟩ := hadded.stores.exists_storedAt hadded.atParent
    obtain rfl := Option.some.inj (hat.cut.node?.symm.trans
      (Document.node?_withChild_self name h.cut.node?))
    have hfirst : (Forest.node name [] .nil node.children).child? name = some (0, .nil) :=
      if_pos (by simp [nameMatches])
    rw [hat.child? hadded.stores, hfirst]
    exact congrArg Except.ok hadded.atChild
  · have hold : tree.nodes = begins 0 pre ++ ⟨width pre⟩ ::
        begins (width (pre ++ .beginNode node.name :: body)) (inner ++ .endNode :: post) := by
      rw [nodes, h.tokens, Option.getD_some, begins_around h.cut.bodyOf]
    have hfront : ∀ n ∈ begins 0 pre, n.offset < width pre := by
      intro n hn
      have := (mem_begins hn).2
      omega
    have hbehind : width pre < width (pre ++ .beginNode node.name :: body) := by
      have := (Token.beginNode node.name).four_le_size
      rw [width_append, width_cons]
      omega
    rw [h.nodes_spliced hname, hold, h.offset]
    generalize width (pre ++ .beginNode node.name :: body) = w at hbehind ⊢
    have hnew : begins w (.beginNode name :: ([] ++ [] ++ .endNode :: inner) ++ .endNode :: post) =
        ⟨w⟩ :: begins (width [.beginNode name, .endNode] + w) (inner ++ .endNode :: post) := by
      rw [Nat.add_comm]
      exact begins_append w [.beginNode name, .endNode] (inner ++ .endNode :: post)
    rw [hnew, ← h.cut.index]
    exact shiftedBeside_of_append hfront hbehind (width_mod _)

/-- The search for a child of the same name comes to an end, and finds one if there is one. -/
theorem namesake? (h : tree.StoredAt doc i ref node pre body inner post) (hdoc : tree.Stores doc)
    (name : Bytes) :
    ∃ found, tree.namesake? ref name = .ok found ∧
      (found.isSome ↔ ∃ j child, doc.IsParent i j ∧ doc.node? j = some child ∧ child.name = name) := by
  have hmet := h.metBelow
  have hwalk := h.walkFrom
  generalize met (width (pre ++ .beginNode node.name :: body)) inner 1 node.children = nodes at *
  let p (n : NodeRef × Int) : Bool :=
    decide (n.2 = 1) && (tree.nodeName n.1).toOption.any fun found => decide (found = name)
  have haccept : ∀ n ∈ nodes, (if n.2 = 1 then
      (tree.nodeName n.1).map fun found => decide (found = name) else .ok false) = .ok (p n) := by
    intro n hn
    obtain ⟨j, -, hbelow⟩ := exists_of_forall₂_right hmet hn
    obtain ⟨_, _, _, _, _, hat⟩ := hdoc.exists_storedAt hbelow.place
    by_cases hone : n.2 = 1
    · simp [p, hone, hat.nodeName, Except.map, Except.toOption]
    · simp [p, hone]
  refine ⟨(nodes.find? p).map Prod.fst, ?_, ?_⟩
  · rw [Tree.namesake?, hwalk, Walk.find?_eq haccept]
    rfl
  · rw [Option.isSome_map, List.find?_isSome]
    constructor
    · rintro ⟨n, hn, hp⟩
      obtain ⟨j, hj, hbelow⟩ := exists_of_forall₂_right hmet hn
      obtain ⟨child, _, _, _, _, hat⟩ := hdoc.exists_storedAt hbelow.place
      simp only [p, hat.nodeName, Except.toOption, Option.any_some, Bool.and_eq_true,
        decide_eq_true_eq] at hp
      exact ⟨j, child, (hbelow.isParent_iff (h.inside_iff.1 hj)).2 hp.1, hat.cut.node?, hp.2⟩
    · rintro ⟨j, child, hparent, hchild, hname⟩
      obtain ⟨n, hn, hbelow⟩ := exists_of_forall₂_left hmet (h.inside_iff.2 hparent.inside)
      obtain ⟨found, _, _, _, _, hat⟩ := hdoc.exists_storedAt hbelow.place
      obtain rfl : found = child := Option.some.inj (hat.cut.node?.symm.trans hchild)
      refine ⟨n, hn, ?_⟩
      simp [p, hat.nodeName, Except.toOption, hname, (hbelow.isParent_iff hparent.inside).1 hparent]

end StoredAt

/-- **Adding a child, said of the document.** The name is refused exactly if it is empty or contains a
slash or a zero, and otherwise the child is refused exactly if the parent has one of this name. If a
child is added, the document has one more node and is otherwise as before. -/
theorem stores_addChild (h : tree.Stores doc) (href : tree.nodes[i]? = some ref)
    (htext : Bytes.isText name = true) :
    ((∃ left, addChild ref name tree = .error .badName left) ↔
      name = [] ∨ slash ∈ name ∨ 0 ∈ name) ∧
    ((∃ left, addChild ref name tree = .error .alreadyExists left) ↔
      ¬ (name = [] ∨ slash ∈ name ∨ 0 ∈ name) ∧
        ∃ j child, doc.IsParent i j ∧ doc.node? j = some child ∧ child.name = name) ∧
    ∀ child tree', addChild ref name tree = .ok child tree' →
      Inserted tree tree' doc i ref name child := by
  obtain ⟨node, pre, body, inner, post, hat⟩ := h.exists_storedAt href
  obtain ⟨found, hfound, hexists⟩ := hat.namesake? h name
  by_cases hname : isNodeName name = true
  · have hgood := isNodeName_iff.1 hname
    rw [addChild_eq, if_pos hname, hfound, hat.propertiesEnd, ← hexists]
    cases found with
    | some other => simp [hgood]
    | none =>
      dsimp only
      by_cases hfree : tree.free < (emptyNode name).length
      · simp [hgood, hfree]
      · rw [if_neg hfree]
        refine ⟨by simp [hgood], by simp [hgood], ?_⟩
        rintro child tree' ⟨⟩
        exact hat.inserted (not_mem_of_isNodeName hname) htext (by omega)
  · have hbad : name = [] ∨ slash ∈ name ∨ 0 ∈ name :=
      not_not.1 (mt isNodeName_iff.2 hname)
    rw [addChild_eq, if_neg hname]
    simp [hbad]

/-- The root may have a child with the name of a node further down. -/
theorem stores_addChild_branching : ∃ tree',
    addChild ⟨4⟩ (Bytes.ofText "b") branching = .ok ⟨32⟩ tree' ∧
      Inserted branching tree' branchingDocument 0 ⟨4⟩ (Bytes.ofText "b") ⟨32⟩ := by
  have hnamesake : branching.namesake? ⟨4⟩ (Bytes.ofText "b") = .ok none := by
    rw [Tree.namesake?, iterates_iff.1 branching_run]
    cbv
  have hend : branching.propertiesEnd ⟨4⟩ = .ok 32 := by cbv
  have hadd : addChild ⟨4⟩ (Bytes.ofText "b") branching =
      .ok ⟨32⟩ (branching.spliced 32 0 (emptyNode (Bytes.ofText "b"))) := by
    rw [addChild_eq, if_pos (by decide +kernel), hnamesake, hend]
    exact if_neg (by decide +kernel)
  have hroot : branching.nodes[0]? = some ⟨4⟩ := by rw [branching_nodes]; rfl
  exact ⟨_, hadd, (stores_addChild branching_stores hroot (Bytes.isText_ofText "b")).2.2 _ _ hadd⟩

end Tree

end BootTree
