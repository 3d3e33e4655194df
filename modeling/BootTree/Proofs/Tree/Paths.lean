import BootTree.Proofs.Tree.Walking

/-!
# BootTree.Proofs.Tree.Paths

Following a path in a stored tree leads to the node that the path means in the document, and the
node has the name that the path ends in.

* `Tree.Stores.resolve`: the node at the end of a path; `Tree.resolve_concat`: one component further.
* `Document.exists_of_find?`, `Tree.Stores.exists_of_find?`: its name, and its place.
* `Document.last_eq_of_find?`: paths that end in different full names lead to different nodes.
-/

namespace BootTree

open Blob

namespace Tree

variable {tree : Tree} {doc : Document}

theorem StoredAt.descend {i : Nat} {ref : NodeRef} {node : Node} {pre body inner post : List Token}
    (h : tree.StoredAt doc i ref node pre body inner post) (hdoc : tree.Stores doc)
    (href : tree.nodes[i]? = some ref) (path : List Bytes) :
    tree.descend ref path = .ok ((node.children.descend i path).bind (tree.nodes[·]?)) := by
  induction path generalizing i ref node pre body inner post with
  | nil =>
    simp only [Tree.descend, Forest.descend, Option.bind_some, href]
  | cons component rest ih =>
    rw [Tree.descend, h.child? hdoc, Forest.descend]
    cases hchild : node.children.child? component with
    | none => rfl
    | some found =>
      obtain ⟨child, hnode, hchildren, -⟩ := Forest.exists_of_child? hchild
      have hlt : found.1 < node.children.size := by
        rw [← Forest.node?_isSome_iff, hnode]
        rfl
      have hdocNode : doc.node? (i + 1 + found.1) = some child := by
        rw [← hnode]
        exact Forest.node?_inner h.cut.node? hlt
      have hsize : i + 1 + found.1 < tree.nodes.length := by
        rw [hdoc.length_nodes, ← Forest.node?_isSome_iff, ← Document.node?, hdocNode]
        rfl
      have hplace := List.getElem?_eq_getElem hsize
      obtain ⟨node', pre', body', inner', post', hat⟩ := hdoc.exists_storedAt hplace
      have hsame := hat.cut.node?
      rw [hdocNode, Option.some.injEq] at hsame
      subst hsame
      dsimp only [Option.bind_some]
      rw [hplace]
      dsimp only
      rw [ih hat hplace, hchildren]

theorem firstNode_replicate_nop {name bytes : Bytes} {ts : List Token} {offset n : Nat}
    (h : tokens? bytes = some (List.replicate n .nop ++ .beginNode name :: ts)) :
    firstNode offset bytes = .ok ⟨offset + width (List.replicate n .nop)⟩ := by
  induction n generalizing bytes offset with
  | zero =>
    rw [firstNode]
    split <;> rename_i heq <;> rw [(tokens?_eq_cons_iff.1 h).1] at heq
    · cases heq
    · rfl
    · exact absurd rfl (heq name)
  | succ n ih =>
    obtain ⟨hread, hrest⟩ := tokens?_eq_cons_iff.1 h
    rw [firstNode]
    split <;> rename_i heq <;> rw [hread] at heq
    · rw [ih hrest, List.replicate_succ, width_cons, Nat.add_assoc]
    · cases heq
    · rename_i hne
      exact absurd hread hne

theorem Stores.root (h : tree.Stores doc) :
    ∃ ref, tree.nodes[0]? = some ref ∧ tree.root = .ok ref := by
  obtain ⟨ts, htokens, hdoc⟩ := h
  cases hdoc with
  | root before behind htext hbody hinner =>
    refine ⟨⟨0 + width (List.replicate before .nop)⟩, ?_, ?_⟩
    · rw [nodes, htokens, Option.getD_some, begins_append, begins_replicate_nop]
      rfl
    · exact firstNode_replicate_nop htokens

theorem StoredAt.children_root {ref : NodeRef} {node : Node} {pre body inner post : List Token}
    (h : tree.StoredAt doc 0 ref node pre body inner post) : node.children = doc.children := by
  have hnode := h.cut.node?
  rw [Document.node?, Document.forest, Forest.node?, Option.some.injEq] at hnode
  rw [← hnode]

theorem Stores.resolve (h : tree.Stores doc) {path : Bytes} (hslash : path.head? = some slash) :
    tree.resolve path = .ok ((doc.find? path).bind (tree.nodes[·]?)) := by
  obtain ⟨ref, href, hroot⟩ := h.root
  obtain ⟨node, pre, body, inner, post, hat⟩ := h.exists_storedAt href
  rw [Tree.resolve, if_neg (by simp [hslash]), hroot, Document.find?, if_pos hslash,
    ← hat.children_root]
  exact hat.descend h href _

theorem head?_of_resolve {path : Bytes} {found : Option NodeRef}
    (h : tree.resolve path = .ok found) : path.head? = some slash := by
  by_contra hslash
  rw [Tree.resolve, if_pos hslash] at h
  cases h

theorem Stores.exists_of_resolve {path : Bytes} {ref : NodeRef} (h : tree.Stores doc)
    (hresolve : tree.resolve path = .ok (some ref)) :
    ∃ i, doc.find? path = some i ∧ tree.nodes[i]? = some ref := by
  rw [h.resolve (head?_of_resolve hresolve), Except.ok.injEq] at hresolve
  exact Option.bind_eq_some_iff.1 hresolve

theorem descend_concat {node child found : NodeRef} {path : List Bytes} {component : Bytes}
    (h : tree.descend node path = .ok (some child))
    (hfound : tree.child? child component = .ok (some found)) :
    tree.descend node (path ++ [component]) = .ok (some found) := by
  induction path generalizing node with
  | nil =>
    cases h
    rw [List.nil_append, Tree.descend, hfound]
    rfl
  | cons first rest ih =>
    rw [List.cons_append, Tree.descend]
    rw [Tree.descend] at h
    split at h
    · cases h
    · cases h
    · rename_i next hnext
      exact ih h

/-- One component further. -/
theorem resolve_concat {path path' component : Bytes} {node child : NodeRef}
    (h : tree.resolve path = .ok (some node))
    (hchild : tree.child? node component = .ok (some child)) (hslash : path'.head? = some slash)
    (hpath : components path' = components path ++ [component]) :
    tree.resolve path' = .ok (some child) := by
  have hslash' := head?_of_resolve h
  rw [Tree.resolve, if_neg (by simp [hslash'])] at h
  rw [Tree.resolve, if_neg (by simp [hslash]), hpath]
  split at h
  · cases h
  · exact descend_concat h hchild

end Tree

/-! ## Names at the end of paths -/

theorem Forest.exists_of_descend {f root : Forest} {start i : Nat} {path : List Bytes}
    (hroot : ∀ k, k < f.size → root.node? (start + 1 + k) = f.node? k)
    (hstart : (root.node? start).isSome = true) (h : f.descend start path = some i) :
    ∃ node, root.node? i = some node ∧
      ∀ last, path.getLast? = some last → nameMatches node.name last = true := by
  induction path generalizing f start with
  | nil =>
    rw [descend, Option.some.injEq] at h
    subst h
    obtain ⟨node, hnode⟩ := Option.isSome_iff_exists.1 hstart
    refine ⟨node, hnode, ?_⟩
    intro last hlast
    cases hlast
  | cons component rest ih =>
    rw [descend] at h
    cases hchild : f.child? component with
    | none => rw [hchild] at h; cases h
    | some found =>
      obtain ⟨node, hnode, hchildren, hname⟩ := exists_of_child? hchild
      have hlt : found.1 < f.size := by
        rw [← node?_isSome_iff, hnode]
        rfl
      have hplace : root.node? (start + 1 + found.1) = some node := by rw [hroot _ hlt, hnode]
      rw [hchild] at h
      dsimp only at h
      cases rest with
      | nil =>
        rw [descend, Option.some.injEq] at h
        refine ⟨node, h ▸ hplace, ?_⟩
        intro last hlast
        rw [List.getLast?_singleton, Option.some.injEq] at hlast
        rw [← hlast, hname]
      | cons next rest =>
        have hinner : ∀ k, k < found.2.size →
            root.node? (start + 1 + found.1 + 1 + k) = found.2.node? k := by
          intro k hk
          rw [← hchildren] at hk ⊢
          exact node?_inner hplace hk
        obtain ⟨target, htarget, hlast⟩ := ih hinner (by rw [hplace]; rfl) h
        refine ⟨target, htarget, ?_⟩
        intro last heq
        rw [List.getLast?_cons_cons] at heq
        exact hlast last heq

/-- A name with a unit address means nodes of this full name only. -/
theorem eq_of_nameMatches {name wanted : Bytes} (h : nameMatches name wanted = true)
    (hunit : atSign ∈ wanted) : name = wanted := by
  simpa [nameMatches, hunit] using h

theorem Document.exists_of_find? {doc : Document} {path : Bytes} {i : Nat}
    (h : doc.find? path = some i) :
    ∃ node, doc.node? i = some node ∧
      ∀ last, (Tree.components path).getLast? = some last → nameMatches node.name last = true := by
  rw [find?] at h
  by_cases hslash : path.head? = some slash
  · rw [if_pos hslash] at h
    have hstart : doc.forest.node? 0 = some ⟨doc.name, doc.properties, doc.children⟩ := rfl
    have hinner : ∀ k, k < doc.children.size →
        doc.forest.node? (0 + 1 + k) = doc.children.node? k := by
      intro k hk
      exact Forest.node?_inner hstart hk
    exact Forest.exists_of_descend hinner (by rw [hstart]; rfl) h
  · rw [if_neg hslash] at h
    cases h

/-- Paths that end in the same node end in the same name, if they end in full names. -/
theorem Document.last_eq_of_find? {doc : Document} {path path' last last' : Bytes} {i : Nat}
    (h : doc.find? path = some i) (h' : doc.find? path' = some i)
    (hlast : (Tree.components path).getLast? = some last)
    (hlast' : (Tree.components path').getLast? = some last') (hunit : atSign ∈ last)
    (hunit' : atSign ∈ last') : last = last' := by
  obtain ⟨node, hnode, hname⟩ := exists_of_find? h
  obtain ⟨node', hnode', hname'⟩ := exists_of_find? h'
  rw [hnode, Option.some.injEq] at hnode'
  subst hnode'
  rw [← eq_of_nameMatches (hname last hlast) hunit, eq_of_nameMatches (hname' last' hlast') hunit']

theorem Tree.Stores.exists_of_find? {tree : Tree} {doc : Document} {path : Bytes} {i : Nat}
    (h : tree.Stores doc) (hfind : doc.find? path = some i) :
    ∃ ref node pre body inner post, tree.resolve path = .ok (some ref) ∧
      tree.nodes[i]? = some ref ∧ tree.StoredAt doc i ref node pre body inner post := by
  have hslash : path.head? = some slash := by
    by_contra hslash
    rw [Document.find?, if_neg hslash] at hfind
    cases hfind
  obtain ⟨node, hnode, -⟩ := Document.exists_of_find? hfind
  have hlt : i < tree.nodes.length := by
    rw [h.length_nodes, ← Forest.node?_isSome_iff, ← Document.node?, hnode]
    rfl
  have href := List.getElem?_eq_getElem hlt
  obtain ⟨found, pre, body, inner, post, hat⟩ := h.exists_storedAt href
  refine ⟨tree.nodes[i], found, pre, body, inner, post, ?_, href, hat⟩
  rw [h.resolve hslash, hfind, Option.bind_some, href]

end BootTree
