import BootTree.Proofs.Tree.Paths

/-!
# BootTree.Proofs.Tree.Visits

Walks through a whole stored document. A walk that starts at the root with depth zero meets node
after node in document order, each at its depth in the document; whoever stops at one of them and
goes on later goes on with the next one. A search of all nodes looks at them in the same order, and
its answer does not depend on how the document is stored.

* `Document.depth?`, `Document.Inside`: how deep a node is, and nodes inside others;
  `Document.Inside.depth_lt`, `Document.inside_of_deeper`.
* `Tree.visits`: the nodes of a document with their places and depths.
* `Tree.Stores.walkFrom`, `Tree.Stores.next`: the walk from any of them, and its first step;
  `Tree.Stores.find?_walkFrom`: on to the next one that is not too deep.
* `Tree.Stores.walkAll`, `Tree.Stores.find?_walkAll`: searching all nodes is searching their numbers.
-/

namespace BootTree

open Blob

/-! ## Depths -/

theorem Forest.outline_inner {f : Forest} {i d k : Nat} {node : Node} {entry : Bytes × Nat}
    (hnode : f.node? i = some node) (hentry : (f.outline d)[i]? = some entry)
    (hk : k < node.children.size) :
    (f.outline d)[i + 1 + k]? = (node.children.outline (entry.2 + 1))[k]? := by
  induction f generalizing i d with
  | nil => cases hnode
  | node name properties children next ihc ihn =>
    cases i with
    | zero =>
      rw [node?, Option.some.injEq] at hnode
      subst hnode
      rw [outline, List.getElem?_cons_zero, Option.some.injEq] at hentry
      subst hentry
      rw [outline, show 0 + 1 + k = k + 1 by omega, List.getElem?_cons_succ,
        List.getElem?_append_left (by rwa [length_outline])]
    | succ i =>
      rw [node?] at hnode
      rw [outline, List.getElem?_cons_succ] at hentry
      rw [outline, show i + 1 + 1 + k = (i + 1 + k) + 1 by omega, List.getElem?_cons_succ]
      by_cases hlt : i < children.size
      · rw [if_pos hlt] at hnode
        rw [List.getElem?_append_left (by rwa [length_outline])] at hentry
        have hinner := node?_isSome_iff.2 hk
        rw [← node?_inner hnode hk, node?_isSome_iff] at hinner
        rw [List.getElem?_append_left (by rwa [length_outline]), ihc hnode hentry]
      · rw [if_neg hlt] at hnode
        rw [List.getElem?_append_right (by rw [length_outline]; omega), length_outline] at hentry
        rw [List.getElem?_append_right (by rw [length_outline]; omega), length_outline,
          show i + 1 + k - children.size = i - children.size + 1 + k by omega, ihn hnode hentry]

theorem Forest.outline_of_node? {f : Forest} {i : Nat} {node : Node} (d : Nat)
    (h : f.node? i = some node) : ∃ depth, (f.outline d)[i]? = some (node.name, depth) := by
  induction f generalizing i d with
  | nil => cases h
  | node name properties children next ihc ihn =>
    cases i with
    | zero =>
      rw [node?, Option.some.injEq] at h
      subst h
      exact ⟨d, rfl⟩
    | succ i =>
      rw [node?] at h
      rw [outline, List.getElem?_cons_succ]
      by_cases hlt : i < children.size
      · rw [if_pos hlt] at h
        rw [List.getElem?_append_left (by rwa [length_outline])]
        exact ihc (d + 1) h
      · rw [if_neg hlt] at h
        rw [List.getElem?_append_right (by rw [length_outline]; omega), length_outline]
        exact ihn d h

/-- The nodes inside a node are all behind it, as far as the forest goes. -/
theorem Forest.add_size_lt {f : Forest} {i : Nat} {node : Node} (hnode : f.node? i = some node) :
    i + node.children.size < f.size := by
  cases hsize : node.children.size with
  | zero =>
    rw [Nat.add_zero, ← node?_isSome_iff, hnode]
    rfl
  | succ k =>
    have hk : k < node.children.size := by omega
    have hinner := node?_inner hnode hk
    rw [show i + (k + 1) = i + 1 + k by omega, ← node?_isSome_iff, hinner, node?_isSome_iff]
    omega

theorem Forest.depth_of_outline_zero {f : Forest} {d : Nat} {entry : Bytes × Nat}
    (h : (f.outline d)[0]? = some entry) : entry.2 = d := by
  cases f with
  | nil => cases h
  | node name properties children next => cases h; rfl

/-- Behind the nodes inside a node the forest is no deeper than at the node itself. -/
theorem Forest.outline_behind {f : Forest} {i d : Nat} {node : Node} {entry behind : Bytes × Nat}
    (hnode : f.node? i = some node) (hentry : (f.outline d)[i]? = some entry)
    (hbehind : (f.outline d)[i + 1 + node.children.size]? = some behind) : behind.2 ≤ entry.2 := by
  induction f generalizing i d with
  | nil => cases hnode
  | node name properties children next ihc ihn =>
    cases i with
    | zero =>
      rw [node?, Option.some.injEq] at hnode
      subst hnode
      rw [outline, List.getElem?_cons_zero, Option.some.injEq] at hentry
      subst hentry
      rw [outline, show 0 + 1 + children.size = children.size + 1 by omega, List.getElem?_cons_succ,
        List.getElem?_append_right (by simp), length_outline, Nat.sub_self] at hbehind
      exact Nat.le_of_eq (depth_of_outline_zero hbehind)
    | succ i =>
      rw [node?] at hnode
      rw [outline, List.getElem?_cons_succ] at hentry
      rw [outline, show i + 1 + 1 + node.children.size = (i + 1 + node.children.size) + 1 by omega,
        List.getElem?_cons_succ] at hbehind
      by_cases hlt : i < children.size
      · rw [if_pos hlt] at hnode
        rw [List.getElem?_append_left (by rwa [length_outline])] at hentry
        have hinside := add_size_lt hnode
        by_cases hlast : i + 1 + node.children.size < children.size
        · rw [List.getElem?_append_left (by rwa [length_outline])] at hbehind
          exact ihc hnode hentry hbehind
        · -- the node is the last one of the children that it belongs to
          have hzero : i + 1 + node.children.size - children.size = 0 := by omega
          rw [List.getElem?_append_right (by rw [length_outline]; omega), length_outline,
            hzero] at hbehind
          rw [depth_of_outline_zero hbehind]
          exact Nat.le_of_succ_le (le_of_mem_outline (List.mem_of_getElem? hentry))
      · rw [if_neg hlt] at hnode
        rw [List.getElem?_append_right (by rw [length_outline]; omega), length_outline] at hentry
        rw [List.getElem?_append_right (by rw [length_outline]; omega), length_outline,
          show i + 1 + node.children.size - children.size =
            i - children.size + 1 + node.children.size by omega] at hbehind
        exact ihn hnode hentry hbehind

namespace Document

variable {doc : Document}

/-- How deep a node is, the root having depth zero. -/
def depth? (doc : Document) (i : Nat) : Option Nat := doc.outline[i]?.map Prod.snd

/-- Whether a node is inside another one: its number is among those behind that node that belong to
the nodes inside it. -/
def Inside (doc : Document) (outer i : Nat) : Prop :=
  ∃ node, doc.node? outer = some node ∧ outer < i ∧ i ≤ outer + node.children.size

theorem outline_eq (doc : Document) : doc.outline = doc.forest.outline 0 := by
  simp [outline, forest, Forest.outline]

theorem depth?_isSome_iff {i : Nat} : (doc.depth? i).isSome ↔ i < doc.forest.size := by
  rw [depth?, Option.isSome_map, outline_eq, ← Forest.length_outline doc.forest 0]
  simp

theorem one_le_depth {i depth : Nat} (hi : 0 < i) (h : doc.depth? i = some depth) : 1 ≤ depth := by
  obtain ⟨entry, hentry, rfl⟩ := Option.map_eq_some_iff.1 h
  obtain ⟨k, rfl⟩ := Nat.exists_eq_succ_of_ne_zero (Nat.ne_of_gt hi)
  rw [outline, List.getElem?_cons_succ] at hentry
  exact Forest.le_of_mem_outline (List.mem_of_getElem? hentry)

/-- Nodes inside a node are deeper than it. -/
theorem Inside.depth_lt {outer i depth inner : Nat} (h : doc.Inside outer i)
    (houter : doc.depth? outer = some depth) (hinner : doc.depth? i = some inner) :
    depth < inner := by
  obtain ⟨node, hnode, hlt, hle⟩ := h
  obtain ⟨entry, hentry, rfl⟩ := Option.map_eq_some_iff.1 houter
  obtain ⟨found, hfound, rfl⟩ := Option.map_eq_some_iff.1 hinner
  obtain ⟨k, rfl⟩ := Nat.exists_eq_add_of_lt hlt
  have hk : k < node.children.size := by omega
  rw [outline_eq] at hentry hfound
  rw [show outer + k + 1 = outer + 1 + k by omega, Forest.outline_inner hnode hentry hk] at hfound
  exact Forest.le_of_mem_outline (List.mem_of_getElem? hfound)

/-- As long as all nodes behind a node are deeper than it, they are inside it. -/
theorem inside_of_deeper {outer i depth : Nat} (houter : doc.depth? outer = some depth)
    (hlt : outer < i) (hi : i < doc.forest.size)
    (hdeeper : ∀ j, outer < j → j ≤ i → ∀ inner, doc.depth? j = some inner → depth < inner) :
    doc.Inside outer i := by
  have hsome : (doc.node? outer).isSome := Forest.node?_isSome_iff.2 (Nat.lt_trans hlt hi)
  obtain ⟨node, hnode⟩ := Option.isSome_iff_exists.1 hsome
  refine ⟨node, hnode, hlt, ?_⟩
  by_contra hbehind
  have hsize : outer + 1 + node.children.size < doc.forest.size := by omega
  obtain ⟨inner, hinner⟩ := Option.isSome_iff_exists.1 (depth?_isSome_iff.2 hsize)
  have hdeep := hdeeper _ (by omega) (by omega) inner hinner
  obtain ⟨entry, hentry, rfl⟩ := Option.map_eq_some_iff.1 houter
  obtain ⟨behind, hfound, rfl⟩ := Option.map_eq_some_iff.1 hinner
  rw [outline_eq] at hentry hfound
  exact absurd hdeep (Nat.not_lt.2 (Forest.outline_behind hnode hentry hfound))

end Document

namespace Tree

/-- The nodes of a document in order, as a walk from the root meets them. -/
def visits (tree : Tree) (doc : Document) : List (NodeRef × Int) :=
  tree.nodes.zipWith (fun ref entry => (ref, (entry.2 : Int))) doc.outline

variable {tree : Tree} {doc : Document} {i : Nat} {ref : NodeRef} {d : Int}

theorem visits_getElem?_eq_some_iff :
    (tree.visits doc)[i]? = some (ref, d) ↔
      tree.nodes[i]? = some ref ∧ ∃ depth, doc.depth? i = some depth ∧ (depth : Int) = d := by
  rw [visits, List.getElem?_zipWith_eq_some]
  constructor
  · rintro ⟨node, entry, hnode, hentry, heq⟩
    cases heq
    exact ⟨hnode, entry.2, by rw [Document.depth?, hentry]; rfl, rfl⟩
  · rintro ⟨hnode, depth, hdepth, rfl⟩
    obtain ⟨entry, hentry, rfl⟩ := Option.map_eq_some_iff.1 hdepth
    exact ⟨ref, entry, hnode, hentry, rfl⟩

theorem Stores.length_visits (h : tree.Stores doc) :
    (tree.visits doc).length = doc.forest.size := by
  rw [visits, List.length_zipWith, h.length_nodes]
  simp [Document.outline, Document.forest, Forest.size]

/-! ## From node to node -/

theorem next_of_walkFrom {nodes : List (NodeRef × Int)}
    (h : tree.walkFrom ref d = ⟨nodes, none⟩) : tree.next ref d = .ok nodes.head? := by
  rw [Tree.walkFrom] at h
  split at h
  · cases h
  · rename_i hnext
    cases h
    exact hnext
  · rename_i hnext
    rw [Walk.prepend, Walk.mk.injEq] at h
    rw [hnext, ← h.1]
    rfl

/-- A walk that is stopped at a node and taken up again there meets what is left of it. -/
theorem walkFrom_of_cons {n : NodeRef × Int} {nodes : List (NodeRef × Int)}
    (h : tree.walkFrom ref d = ⟨n :: nodes, none⟩) : tree.walkFrom n.1 n.2 = ⟨nodes, none⟩ := by
  rw [Tree.walkFrom] at h
  split at h
  · cases h
  · cases h
  · rw [Walk.prepend, Walk.mk.injEq, List.cons.injEq] at h
    obtain ⟨⟨rfl, hnodes⟩, hfailure⟩ := h
    rw [← hnodes, ← hfailure]

theorem Stores.walkFrom_root (h : tree.Stores doc) (href : tree.nodes[0]? = some ref) :
    tree.walkFrom ref 0 = ⟨(tree.visits doc).drop 1, none⟩ := by
  obtain ⟨node, pre, body, inner, post, hat⟩ := h.exists_storedAt href
  have hchildren := hat.children_root
  have hlength := hat.cut.innerOf.length_begins (width (pre ++ .beginNode node.name :: body))
  have hpre : begins 0 pre = [] := List.length_eq_zero_iff.1 hat.cut.index
  rw [hat.walkFrom, visits, nodes, hat.tokens, Option.getD_some, begins_around hat.cut.bodyOf, hpre,
    Document.outline, List.nil_append, List.zipWith_cons_cons, List.drop_succ_cons, List.drop_zero,
    begins_append, ← List.append_nil (doc.children.outline 1), List.zipWith_append, met, hchildren,
    Walk.after, List.zipWith_nil_right]
  rw [hlength, hchildren, Forest.length_outline]

/-- The walk from any node on, if it keeps the depth that the node has in the document. -/
theorem Stores.walkFrom (h : tree.Stores doc) (hvisit : (tree.visits doc)[i]? = some (ref, d)) :
    tree.walkFrom ref d = ⟨(tree.visits doc).drop (i + 1), none⟩ := by
  induction i generalizing ref d with
  | zero =>
    obtain ⟨href, depth, hdepth, rfl⟩ := visits_getElem?_eq_some_iff.1 hvisit
    obtain rfl : 0 = depth := by simpa [Document.depth?, Document.outline] using hdepth
    exact h.walkFrom_root href
  | succ i ih =>
    obtain ⟨hlt, hget⟩ := List.getElem?_eq_some_iff.1 hvisit
    have hbefore := ih (List.getElem?_eq_getElem (Nat.lt_of_succ_lt hlt))
    rw [List.drop_eq_getElem_cons hlt, hget] at hbefore
    exact walkFrom_of_cons hbefore

theorem Stores.next (h : tree.Stores doc) (hvisit : (tree.visits doc)[i]? = some (ref, d)) :
    tree.next ref d = .ok (tree.visits doc)[i + 1]? := by
  rw [next_of_walkFrom (h.walkFrom hvisit), List.head?_drop]

theorem exists_find?_drop {α : Type} (p : α → Bool) (l : List α) (start : Nat) :
    ∃ j, start ≤ j ∧ (l.drop start).find? p = l[j]? ∧ (∀ a, l[j]? = some a → p a = true) ∧
      ∀ k a, start ≤ k → k < j → l[k]? = some a → p a = false := by
  refine ⟨start + (l.drop start).findIdx p, Nat.le_add_right _ _, ?_, ?_, ?_⟩
  · rw [List.find?_eq_getElem?_findIdx, List.getElem?_drop]
  · intro a ha
    rw [← List.getElem?_drop, ← List.find?_eq_getElem?_findIdx] at ha
    exact List.find?_some ha
  · intro k a hle hlt hk
    have hbefore : k - start < (l.drop start).findIdx p := by omega
    obtain ⟨hlength, hget⟩ := List.getElem?_eq_some_iff.1 hk
    have := List.not_of_lt_findIdx hbefore
    simpa [Nat.add_sub_cancel' hle, hget] using this

/-- Whoever leaves a node for the next one that is not too deep comes to it, or to the end. -/
theorem Stores.find?_walkFrom (h : tree.Stores doc)
    (hvisit : (tree.visits doc)[i]? = some (ref, d)) (limit : Int) :
    ∃ j, i < j ∧ (tree.walkFrom ref d).find? (fun _ d => .ok (decide (d ≤ limit))) =
        .ok (tree.visits doc)[j]? ∧
      (∀ k, i < k → k < j → ∀ depth, doc.depth? k = some depth → limit < depth) ∧
      (j < doc.forest.size → ∃ depth, doc.depth? j = some depth ∧ (depth : Int) ≤ limit) := by
  obtain ⟨j, hle, hfind, hfound, hpassed⟩ :=
    exists_find?_drop (fun n : NodeRef × Int => decide (n.2 ≤ limit)) (tree.visits doc) (i + 1)
  refine ⟨j, hle, ?_, ?_, ?_⟩
  · have haccept : ∀ n ∈ (tree.visits doc).drop (i + 1),
        (.ok (decide (n.2 ≤ limit)) : Except TreeError Bool) = .ok (decide (n.2 ≤ limit)) :=
      fun _ _ => rfl
    have hsearch := @Walk.find?_eq (fun _ d => .ok (decide (d ≤ limit))) _ _ haccept
    rw [Walk.after, List.append_nil] at hsearch
    rw [h.walkFrom hvisit, ← hfind, hsearch]
  · intro k hik hkj depth hdepth
    have hlt : k < tree.nodes.length := by
      rw [h.length_nodes, ← Document.depth?_isSome_iff, hdepth]
      rfl
    have hk := visits_getElem?_eq_some_iff.2 ⟨List.getElem?_eq_getElem hlt, depth, hdepth, rfl⟩
    exact Int.not_le.1 (of_decide_eq_false (hpassed k _ hik hkj hk))
  · intro hsize
    rw [← h.length_visits] at hsize
    obtain ⟨-, depth, hdepth, heq⟩ :=
      visits_getElem?_eq_some_iff.1 (List.getElem?_eq_getElem hsize)
    refine ⟨depth, hdepth, ?_⟩
    rw [heq]
    exact of_decide_eq_true (hfound _ (List.getElem?_eq_getElem hsize))

/-! ## All nodes -/

theorem walkAt_finish {o : Nat} {ts : List Token}
    (h : tokens? (tree.structBlock.drop o) = some (.finish :: ts)) (depth : Int) :
    tree.walkAt o depth = ⟨[], none⟩ := by
  have hread := (tokens?_eq_cons_iff.1 h).1
  have hnext : nextFrom o (tree.structBlock.drop o) depth = .ok none := by
    rw [nextFrom]
    split <;> rename_i heq <;> rw [hread] at heq <;> cases heq
  rw [walkAt, hnext]

theorem map_fst_met {strings : Bytes} {ts : List Token} {f : Forest} (h : SiblingsOf strings ts f)
    (o depth : Nat) : (met o ts depth f).map Prod.fst = begins o ts := by
  have hlength : (begins o ts).length ≤ (f.outline depth).length := by
    rw [h.length_begins, Forest.length_outline]
  rw [met, List.map_zipWith, ← List.map_uncurry_zip_eq_zipWith]
  exact List.map_fst_zip hlength

/-- A search of all nodes looks at each of them once, in document order. -/
theorem Stores.walkAll (h : tree.Stores doc) :
    ∃ nodes, tree.walkAll = ⟨nodes, none⟩ ∧ nodes.map Prod.fst = tree.nodes := by
  obtain ⟨ts, htokens, hdoc⟩ := h
  cases hdoc with
  | @root name body inner ps children before behind htext hbody hinner =>
    have hroot : tree.root = .ok ⟨0 + width (List.replicate before .nop)⟩ :=
      firstNode_replicate_nop htokens
    have hrest := tokens?_drop htokens
    rw [← List.append_nil (_ :: _)] at hrest
    rw [Nat.zero_add] at hroot
    generalize ho : width (List.replicate before Token.nop) = o at hrest hroot
    obtain ⟨hbodyAt, hinnerAt, hendAt, hbehindAt⟩ := tokens?_split_node hrest
    have hpositive : tree.structBlock.length = tree.structBlock.length - 1 + 1 := by
      have := length_of_tokens? htokens
      have := (Token.beginNode name).four_le_size
      simp only [width_append, width_cons] at *
      omega
    have henter : tree.enter ⟨o⟩ = .ok (name, o + (Token.beginNode name).size) := by
      rw [enter, (tokens?_eq_cons_iff.1 hrest).1]
    have hnops : BodyOf tree.strings ([] ++ List.replicate behind .nop) [] :=
      BodyOf.nil.append_nops behind
    rw [List.append_nil, ← List.nil_append (List.replicate behind Token.nop)] at hbehindAt
    have hfinishAt := tokens?_drop hbehindAt
    rw [List.drop_drop] at hfinishAt
    have hwalk : tree.walkFrom ⟨o⟩ tree.anyDepth =
        ⟨met (o + (Token.beginNode name).size + width body) inner
          (tree.structBlock.length + 1) children, none⟩ := by
      rw [walkFrom_eq_walkAt _ henter, hbody.walkAt hbodyAt, anyDepth, hinner.walkAt hinnerAt,
        hpositive, walkAt_endNode hendAt, hnops.walkAt hbehindAt, walkAt_finish hfinishAt,
        ← hpositive, Walk.after, List.append_nil]
    rw [Tree.walkAll, hroot]
    dsimp only
    rw [hwalk]
    refine ⟨_, rfl, ?_⟩
    rw [List.map_cons, map_fst_met hinner, nodes, htokens, Option.getD_some]
    simp [begins, begins_replicate_nop, hbody.begins_eq_nil, ho]

/-- A search that does not mind depths is a search of the list of places. -/
theorem Walk.find?_eq_findM? (accept : NodeRef → Except TreeError Bool)
    (nodes : List (NodeRef × Int)) :
    (Walk.find? ⟨nodes, none⟩ fun node _ => accept node).map (·.map Prod.fst) =
      (nodes.map Prod.fst).findM? accept := by
  have hgo (walk : Walk) (hwalk : walk.failure = none) :
      (find?.go walk (fun node _ => accept node) nodes).map (·.map Prod.fst) =
        (nodes.map Prod.fst).findM? accept := by
    induction nodes with
    | nil => rw [find?.go, hwalk]; rfl
    | cons n ns ih =>
      rw [find?.go, List.map_cons, List.findM?]
      cases accept n.1 with
      | error e => rfl
      | ok found =>
        cases found with
        | true => rfl
        | false => exact ih
  exact hgo _ rfl

end Tree

section Search

variable {ε α β : Type}

theorem findM?_map (f : α → β) (p : β → Except ε Bool) (l : List α) :
    (l.map f).findM? p = (l.findM? fun a => p (f a)).map (·.map f) := by
  induction l with
  | nil => rfl
  | cons a as ih =>
    rw [List.map_cons, List.findM?, List.findM?]
    cases p (f a) with
    | error e => rfl
    | ok found =>
      cases found with
      | true => rfl
      | false => exact ih

/-- Searching a list is searching its indices. -/
theorem findM?_eq_findM?_range {accept : β → Except ε Bool} {wanted : Nat → Except ε Bool}
    {l : List β} (h : ∀ i b, l[i]? = some b → accept b = wanted i) :
    l.findM? accept = ((List.range l.length).findM? wanted).map (·.bind (l[·]?)) := by
  induction l generalizing wanted with
  | nil => rfl
  | cons b bs ih =>
    have hrest : ∀ i c, bs[i]? = some c → accept c = wanted (i + 1) := by
      intro i c hc
      exact h (i + 1) c hc
    rw [List.length_cons, List.range_succ_eq_map, List.findM?, List.findM?, h 0 b rfl]
    cases wanted 0 with
    | error e => rfl
    | ok found =>
      cases found with
      | true => rfl
      | false =>
        change bs.findM? accept = (((List.range bs.length).map Nat.succ).findM? wanted).map _
        rw [ih hrest, findM?_map]
        cases (List.range bs.length).findM? fun i => wanted (i + 1) with
        | error e => rfl
        | ok found =>
          cases found with
          | none => rfl
          | some i => rfl

theorem findM?_ok {ε α : Type} (p : α → Bool) (l : List α) :
    (l.findM? fun a => (.ok (p a) : Except ε Bool)) = .ok (l.find? p) := by
  induction l with
  | nil => rfl
  | cons a as ih =>
    rw [List.findM?, List.find?_cons]
    cases p a with
    | true => rfl
    | false => exact ih

end Search

/-- The answer of a search of all nodes, with nodes called by their numbers. -/
theorem Tree.Stores.find?_walkAll {tree : Tree} {doc : Document} (h : tree.Stores doc)
    {accept : NodeRef → Except TreeError Bool} {wanted : Nat → Except TreeError Bool}
    (haccept : ∀ i ref, tree.nodes[i]? = some ref → accept ref = wanted i) :
    (tree.walkAll.find? fun node _ => accept node).map (·.map Prod.fst) =
      ((List.range doc.forest.size).findM? wanted).map (·.bind (tree.nodes[·]?)) := by
  obtain ⟨nodes, hwalk, hnodes⟩ := h.walkAll
  rw [hwalk, Walk.find?_eq_findM?, hnodes, findM?_eq_findM?_range haccept, h.length_nodes]

end BootTree
