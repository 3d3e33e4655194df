import Mathlib.Logic.Relation
import BootTree.Proofs.Document.Kept

/-!
# BootTree.Proofs.Tree.Iteration

Going from node to node. Whoever asks a stored tree for the next node again and again, starting at
some node with depth zero, meets exactly the nodes inside that node, in document order, and is told
how far each of them is below the node where the iteration started.

* `Document.inside_iff`: a node is inside another one if a chain of parents leads from it to that.
* `Tree.Iterates`: asking for the next node until there is none; `Tree.iterates_iff`: what such an
  iteration meets is a walk that does not fail.
* `Tree.MetBelow`: a node with the depth below another node that an iteration gives for it.
* `Tree.StoredAt.metBelow`: what a walk from a node meets.
* `Tree.Stores.iterates`: the iteration from any node, and the one through the whole tree.
-/

namespace BootTree

open Blob

/-! ## Nodes inside others -/

/-- What is among some siblings is one of them or inside one of them. -/
theorem Forest.exists_sibling {f : Forest} {k : Nat} (d : Nat) (hk : k < f.size) :
    ∃ m node, f.node? m = some node ∧ (f.outline d)[m]? = some (node.name, d) ∧ m ≤ k ∧
      k ≤ m + node.children.size := by
  induction f generalizing k with
  | nil => cases hk
  | node name properties children next _ ihn =>
    by_cases hfirst : k ≤ children.size
    · exact ⟨0, ⟨name, properties, children⟩, rfl, rfl, Nat.zero_le k, by rwa [Nat.zero_add]⟩
    · rw [size] at hk
      obtain ⟨m, node, hnode, hentry, hle, hbehind⟩ :=
        ihn (show k - children.size - 1 < next.size by omega)
      refine ⟨children.size + m + 1, node, ?_, ?_, by omega, by omega⟩
      · rw [node?, if_neg (by omega), Nat.add_sub_cancel_left, hnode]
      · rw [outline, List.getElem?_cons_succ, List.getElem?_append_right (by simp), length_outline,
          Nat.add_sub_cancel_left, hentry]

/-- Siblings that are further down are the same siblings, each further down. -/
theorem Forest.outline_add (f : Forest) (d e : Nat) :
    f.outline (d + e) = (f.outline d).map fun entry => (entry.1, entry.2 + e) := by
  induction f generalizing d with
  | nil => rfl
  | node name properties children next ihc ihn =>
    rw [outline, outline, List.map_cons, List.map_append, ← ihc, ← ihn, Nat.add_right_comm]

namespace Document

variable {doc : Document} {i j k : Nat}

theorem Inside.lt (h : doc.Inside i j) : i < j := by
  obtain ⟨node, hnode, hlt, hle⟩ := h
  exact hlt

theorem Inside.trans (h : doc.Inside i j) (h' : doc.Inside j k) : doc.Inside i k := by
  obtain ⟨node, hnode, hlt, hle⟩ := h
  obtain ⟨inner, hinner, hlt', hle'⟩ := h'
  obtain ⟨m, rfl⟩ := Nat.exists_eq_add_of_lt hlt
  rw [show i + m + 1 = i + 1 + m by omega] at hle hinner
  have hchild : node.children.node? m = some inner := by
    rw [← Forest.node?_inner hnode (by omega)]
    exact hinner
  have := Forest.add_size_lt hchild
  exact ⟨node, hnode, by omega, by omega⟩

/-- A node inside another one is below one of the children of that, or is one of them. -/
theorem Inside.exists_child (h : doc.Inside i j) :
    ∃ m, doc.IsParent i m ∧ (m = j ∨ doc.Inside m j) := by
  have hj := h.lt_size
  obtain ⟨node, hnode, hlt, hle⟩ := h
  obtain ⟨k, rfl⟩ := Nat.exists_eq_add_of_lt hlt
  obtain ⟨depth, hdepth⟩ := Option.isSome_iff_exists.1 (depth?_isSome_iff.2 (Nat.lt_trans hlt hj))
  obtain ⟨entry, hentry, hentryDepth⟩ := Option.map_eq_some_iff.1 hdepth
  rw [outline_eq] at hentry
  obtain ⟨m, child, hchild, hchildEntry, hmk, hkm⟩ :=
    Forest.exists_sibling (entry.2 + 1) (show k < node.children.size by omega)
  have hm : m < node.children.size := Nat.lt_of_le_of_lt hmk (by omega)
  refine ⟨i + 1 + m, ⟨⟨node, hnode, by omega, by omega⟩, ?_⟩, ?_⟩
  · rw [hdepth, depth?, outline_eq, Forest.outline_inner hnode hentry hm, hchildEntry, ← hentryDepth]
    rfl
  · rcases Nat.eq_or_lt_of_le hmk with rfl | hmk
    · left
      omega
    · right
      refine ⟨child, ?_, by omega, by omega⟩
      rw [node?, Forest.node?_inner hnode hm, hchild]

/-- A node is inside another one if a chain of parents leads from it to that one. -/
theorem inside_iff : doc.Inside i j ↔ Relation.TransGen doc.IsParent i j := by
  constructor
  · intro h
    induction hdist : j - i using Nat.strong_induction_on generalizing i with
    | _ dist ih =>
      obtain ⟨m, hparent, rfl | hinside⟩ := h.exists_child
      · exact .single hparent
      · have him := hparent.inside.lt
        have hmj := hinside.lt
        exact .head hparent (ih (j - m) (by omega) hinside rfl)
  · intro h
    induction h with
    | single hparent => exact hparent.inside
    | tail _ hparent ih => exact ih.trans hparent.inside

end Document

namespace Tree

/-! ## Iterations -/

/-- The nodes that repeated `Tree.next` answers, with their depths, until it answers that there is
none. -/
inductive Iterates (tree : Tree) : NodeRef → Int → List (NodeRef × Int) → Prop
  | stop {ref : NodeRef} {d : Int} : tree.next ref d = .ok none → Iterates tree ref d []
  | step {ref found : NodeRef} {d depth : Int} {rest : List (NodeRef × Int)} :
      tree.next ref d = .ok (some (found, depth)) → Iterates tree found depth rest →
        Iterates tree ref d ((found, depth) :: rest)

variable {tree : Tree} {doc : Document} {i j : Nat} {ref : NodeRef} {d : Int}
  {nodes : List (NodeRef × Int)}

/-- An iteration that comes to its end is a walk that does not fail. -/
theorem iterates_iff : tree.Iterates ref d nodes ↔ tree.walkFrom ref d = ⟨nodes, none⟩ := by
  constructor
  · intro h
    induction h with
    | stop hnext =>
      rw [walkFrom]
      split <;> rename_i heq <;> rw [hnext] at heq <;> cases heq
    | step hnext _ ih =>
      rw [walkFrom]
      split <;> rename_i heq <;> rw [hnext] at heq <;> cases heq
      rw [ih]
      rfl
  · intro h
    induction nodes generalizing ref d with
    | nil => exact .stop (next_of_walkFrom h)
    | cons n rest ih => exact .step (next_of_walkFrom h) (ih (walkFrom_of_cons h))

/-! ## What they meet -/

/-- A node with its depth below the node with number `i`. -/
structure MetBelow (tree : Tree) (doc : Document) (i j : Nat) (n : NodeRef × Int) : Prop where
  place : tree.nodes[j]? = some n.1
  depth : ∃ outer inner, doc.depth? i = some outer ∧ doc.depth? j = some inner ∧
    n.2 = (inner : Int) - outer

/-- A node below another one is its child exactly if its depth is one. -/
theorem MetBelow.isParent_iff {n : NodeRef × Int} (h : tree.MetBelow doc i j n)
    (hinside : doc.Inside i j) : doc.IsParent i j ↔ n.2 = 1 := by
  obtain ⟨outer, inner, houter, hinner, heq⟩ := h.depth
  constructor
  · intro hparent
    have hdepth := hparent.depth
    rw [houter, hinner, Option.map_some, Option.some.injEq] at hdepth
    omega
  · intro hone
    refine ⟨hinside, ?_⟩
    rw [houter, hinner, Option.map_some, Option.some.injEq]
    omega

/-- The numbers of the nodes inside a node. -/
theorem StoredAt.inside_iff {node : Node} {pre body inner post : List Token}
    (h : tree.StoredAt doc i ref node pre body inner post) :
    j ∈ List.range' (i + 1) node.children.size ↔ doc.Inside i j := by
  rw [List.mem_range'_1, Document.Inside, h.cut.node?]
  constructor
  · rintro ⟨hle, hlt⟩
    exact ⟨node, rfl, hle, by omega⟩
  · rintro ⟨found, hfound, hlt, hle⟩
    cases hfound
    exact ⟨hlt, by omega⟩

/-- The nodes that a walk from a node meets are those with the numbers behind it, as far as there are
nodes inside. -/
theorem StoredAt.metBelow {node : Node} {pre body inner post : List Token}
    (h : tree.StoredAt doc i ref node pre body inner post) :
    List.Forall₂ (tree.MetBelow doc i) (List.range' (i + 1) node.children.size)
      (met (width (pre ++ .beginNode node.name :: body)) inner 1 node.children) := by
  have hlength : (met (width (pre ++ .beginNode node.name :: body)) inner 1 node.children).length =
      node.children.size := by
    rw [met, List.length_zipWith, h.cut.innerOf.length_begins, Forest.length_outline, Nat.min_self]
  obtain ⟨outer, houter⟩ := Option.isSome_iff_exists.1 (Document.depth?_isSome_iff.2 h.cut.lt_size)
  obtain ⟨entry, hentry, rfl⟩ := Option.map_eq_some_iff.1 houter
  rw [Document.outline_eq] at hentry
  rw [List.forall₂_iff_get]
  refine ⟨by rw [List.length_range', hlength], ?_⟩
  intro k hk hk'
  rw [List.length_range'] at hk
  have hmet := List.getElem?_eq_getElem hk'
  obtain ⟨found, below, hfound, hbelow, heq⟩ := List.getElem?_zipWith_eq_some.1 hmet
  rw [List.get_eq_getElem, List.get_eq_getElem, List.getElem_range', Nat.one_mul, ← heq]
  have hinner := Forest.outline_inner h.cut.node? hentry hk
  rw [Nat.add_comm entry.2 1, Forest.outline_add, List.getElem?_map, hbelow] at hinner
  refine ⟨by rw [h.nodes_getElem? hk, hfound], entry.2, below.2 + entry.2, houter, ?_, ?_⟩
  · rw [Document.depth?, Document.outline_eq, hinner]
    rfl
  · dsimp only
    omega

/-- **Iterating over nodes.** From any node of a stored document, with depth zero, the iteration meets
the nodes inside it and no others, each once and in document order, with its depth below that node,
and then ends. From the root it meets all nodes of the tree at their depths. -/
theorem Stores.iterates (h : tree.Stores doc) :
    (∀ i ref, tree.nodes[i]? = some ref → ∃ numbers visited,
      (∀ nodes, tree.Iterates ref 0 nodes ↔ nodes = visited) ∧
      numbers.Pairwise (· < ·) ∧ (∀ j, j ∈ numbers ↔ Relation.TransGen doc.IsParent i j) ∧
      List.Forall₂ (tree.MetBelow doc i) numbers visited) ∧
    ∃ root rest, tree.root = .ok root ∧ tree.Iterates root 0 rest ∧
      ((root, 0) :: rest).map Prod.fst = tree.nodes ∧
      ((root, 0) :: rest).map Prod.snd = doc.outline.map fun entry => (entry.2 : Int) := by
  constructor
  · intro i ref href
    obtain ⟨node, pre, body, inner, post, hat⟩ := h.exists_storedAt href
    refine ⟨List.range' (i + 1) node.children.size, _, ?_, List.pairwise_lt_range', ?_,
      hat.metBelow⟩
    · intro nodes
      rw [iterates_iff, hat.walkFrom, Walk.after, List.append_nil, Walk.mk.injEq]
      exact ⟨fun heq => heq.1.symm, fun heq => ⟨heq.symm, rfl⟩⟩
    · intro j
      rw [hat.inside_iff, Document.inside_iff]
  · obtain ⟨root, href, hroot⟩ := h.root
    have hlength : tree.nodes.length = doc.outline.length := by
      rw [h.length_nodes, Document.outline_eq, Forest.length_outline]
    have hvisits : (root, 0) :: (tree.visits doc).drop 1 = tree.visits doc := by
      rw [visits, Document.outline]
      cases hnodes : tree.nodes with
      | nil => rw [hnodes] at href; cases href
      | cons first others =>
        rw [hnodes] at href
        cases href
        rfl
    refine ⟨root, _, hroot, iterates_iff.2 (h.walkFrom_root href), ?_, ?_⟩
    · rw [hvisits, visits, List.map_zipWith, ← List.map_uncurry_zip_eq_zipWith]
      exact List.map_fst_zip (Nat.le_of_eq hlength)
    · have hdepths := List.map_snd_zip (Nat.le_of_eq hlength.symm)
      rw [hvisits, visits, List.map_zipWith, ← List.map_uncurry_zip_eq_zipWith]
      conv_rhs => rw [← hdepths, List.map_map]
      rfl

def branchingTokens : List Token :=
  [.nop, .beginNode [], .property 0 [1], .nop, .beginNode (Bytes.ofText "a"),
    .beginNode (Bytes.ofText "b"), .endNode, .nop, .endNode, .beginNode (Bytes.ofText "c"), .endNode,
    .endNode, .finish]

/-- A tree in which two nodes end at once, with empty tokens between the nodes. -/
def branching : Tree where
  bootCpu := 0
  reservations := []
  structBlock := branchingTokens.flatMap Token.encode
  strings := Bytes.ofText "reg\x00"
  free := 16
  maxSize := none

def branchingDocument : Document where
  name := []
  properties := [⟨Bytes.ofText "reg", [1]⟩]
  children := .node (Bytes.ofText "a") [] (.node (Bytes.ofText "b") [] .nil .nil)
    (.node (Bytes.ofText "c") [] .nil .nil)

theorem branching_stores : branching.Stores branchingDocument := by
  have hnames : 0 ∉ Bytes.ofText "a" ∧ 0 ∉ Bytes.ofText "b" ∧ 0 ∉ Bytes.ofText "c" := by
    decide +kernel
  have hstorable : ∀ t ∈ branchingTokens, t.IsStorable := by
    simp [branchingTokens, Token.IsStorable, hnames]
  have hb : SiblingsOf branching.strings [.beginNode (Bytes.ofText "b"), .endNode, .nop]
      (.node (Bytes.ofText "b") [] .nil .nil) :=
    .node (Bytes.isText_ofText "b") .nil .nil (.nop .nil)
  have hc : SiblingsOf branching.strings [.beginNode (Bytes.ofText "c"), .endNode]
      (.node (Bytes.ofText "c") [] .nil .nil) :=
    .node (Bytes.isText_ofText "c") .nil .nil .nil
  exact ⟨_, tokens?_encode hstorable, .root 1 0 (Bytes.isText_ofText "")
    (.property (by cbv) (.nop .nil)) (.node (Bytes.isText_ofText "a") .nil hb hc)⟩

theorem branching_nodes : branching.nodes = [⟨4⟩, ⟨32⟩, ⟨40⟩, ⟨60⟩] := by cbv

theorem branching_run : branching.Iterates ⟨4⟩ 0 [(⟨32⟩, 1), (⟨40⟩, 2), (⟨60⟩, 1)] :=
  .step (by cbv) (.step (by cbv) (.step (by cbv) (.stop (by cbv))))

theorem iterates_branching :
    branching.Iterates ⟨4⟩ 0 [(⟨32⟩, 1), (⟨40⟩, 2), (⟨60⟩, 1)] ∧
      ∃ numbers, numbers.Pairwise (· < ·) ∧
        (∀ j, j ∈ numbers ↔ Relation.TransGen branchingDocument.IsParent 0 j) ∧
        List.Forall₂ (branching.MetBelow branchingDocument 0) numbers
          [(⟨32⟩, 1), (⟨40⟩, 2), (⟨60⟩, 1)] := by
  obtain ⟨numbers, visited, honly, hnumbers⟩ :=
    (Stores.iterates branching_stores).1 0 ⟨4⟩ (by rw [branching_nodes]; rfl)
  obtain rfl := (honly _).1 branching_run
  exact ⟨branching_run, numbers, hnumbers⟩

end Tree

end BootTree
