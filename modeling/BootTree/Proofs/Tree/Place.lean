import BootTree.Document.Place
import BootTree.Proofs.Blob.Tokens

/-!
# BootTree.Proofs.Tree.Place

Where a node stands among the tokens of a stored document. `NodeAt` cuts the tokens at the node of
a number: what comes in front of it, its properties, its children, and the rest. Any other
properties and children may be put between the cuts, and the tokens then store the document with
that node altered (`NodeAt.alter`), so an edit of one node is a replacement of tokens.

* `DocumentOf.exists_nodeAt`: the tokens can be cut at every node.
* `NodeAt.nodes`: the cut is where `Tree.nodes` says the node begins.
* `DocumentOf.mono`: a document stays stored when more names can be read.
-/

namespace BootTree

open Blob

/-! ## Places -/

@[simp] theorem begins_append (offset : Nat) (s t : List Token) :
    begins offset (s ++ t) = begins offset s ++ begins (offset + width s) t := by
  induction s generalizing offset with
  | nil => simp [begins]
  | cons x xs ih =>
    have hwidth : offset + width (x :: xs) = offset + x.size + width xs := by
      rw [width_cons, Nat.add_assoc]
    rw [hwidth]
    cases x with
    | beginNode name => simp only [List.cons_append, begins, ih]
    | endNode | property | nop | finish => simp only [List.cons_append, begins, ih]

theorem begins_add (k offset : Nat) (ts : List Token) :
    begins (k + offset) ts = (begins offset ts).map fun node => ⟨k + node.offset⟩ := by
  induction ts generalizing offset with
  | nil => rfl
  | cons t ts ih =>
    cases t with
    | beginNode name => simp only [begins, List.map_cons, Nat.add_assoc, ih]
    | endNode | property | nop | finish => simp only [begins, Nat.add_assoc, ih]

theorem mem_begins {offset : Nat} {ts : List Token} {node : NodeRef} (h : node ∈ begins offset ts) :
    offset ≤ node.offset ∧ node.offset < offset + width ts := by
  induction ts generalizing offset with
  | nil => cases h
  | cons t ts ih =>
    have hsize := t.four_le_size
    have hrest (hmem : node ∈ begins (offset + t.size) ts) :
        offset ≤ node.offset ∧ node.offset < offset + width (t :: ts) := by
      have := ih hmem
      rw [width_cons]
      omega
    cases t with
    | beginNode name =>
      rcases List.mem_cons.1 h with rfl | h
      · rw [width_cons]
        exact ⟨Nat.le_refl _, by dsimp only; omega⟩
      · exact hrest h
    | endNode | property | nop | finish => exact hrest h

theorem length_begins_le (offset : Nat) (ts : List Token) :
    (begins offset ts).length ≤ width ts := by
  induction ts generalizing offset with
  | nil => exact Nat.zero_le _
  | cons t ts ih =>
    have hsize := t.four_le_size
    have hrest := ih (offset + t.size)
    rw [width_cons]
    cases t with
    | beginNode name =>
      rw [begins, List.length_cons]
      omega
    | endNode | property | nop | finish => exact Nat.le_trans hrest (Nat.le_add_left _ _)

/-! ## What the grammar rests on -/

section Grammar

variable {strings : Bytes} {ts : List Token} {ps : List Property} {f : Forest}

theorem BodyOf.begins_eq_nil (h : BodyOf strings ts ps) (offset : Nat) : begins offset ts = [] := by
  induction h generalizing offset with
  | nil => rfl
  | nop _ ih => exact ih _
  | property _ _ ih => exact ih _

theorem SiblingsOf.length_begins (h : SiblingsOf strings ts f) (offset : Nat) :
    (begins offset ts).length = f.size := by
  induction h generalizing offset with
  | nil => rfl
  | nop _ ih => exact ih _
  | node _ hbody _ _ ihc ihn =>
    simp [begins, hbody.begins_eq_nil, ihc, ihn, Forest.size]

theorem BodyOf.append_nops (h : BodyOf strings ts ps) (n : Nat) :
    BodyOf strings (ts ++ List.replicate n .nop) ps := by
  induction h with
  | nil =>
    induction n with
    | zero => exact .nil
    | succ n ih => exact .nop ih
  | nop _ ih => exact .nop ih
  | property hname _ ih => exact .property hname ih

/-- Empty tokens in front of the first of some siblings, and the siblings without them. -/
theorem SiblingsOf.split_nops (h : SiblingsOf strings ts f) :
    ∃ n rest, ts = List.replicate n .nop ++ rest ∧ SiblingsOf strings rest f ∧
      ∀ us, rest ≠ .nop :: us := by
  induction h with
  | nil =>
    refine ⟨0, [], rfl, .nil, ?_⟩
    intro us h
    cases h
  | nop _ ih =>
    obtain ⟨n, rest, rfl, hrest, hne⟩ := ih
    exact ⟨n + 1, rest, rfl, hrest, hne⟩
  | node htext hbody hinner hnext _ _ =>
    refine ⟨0, _, rfl, .node htext hbody hinner hnext, ?_⟩
    intro us h
    cases h

/-- Every name that can be read from one strings block can be read from the other. -/
def NamesKept (strings strings' : Bytes) : Prop :=
  ∀ offset name, Strings.read strings offset = .ok name → Strings.read strings' offset = .ok name

variable {strings' : Bytes}

theorem BodyOf.mono (hkept : NamesKept strings strings') (h : BodyOf strings ts ps) :
    BodyOf strings' ts ps := by
  induction h with
  | nil => exact .nil
  | nop _ ih => exact .nop ih
  | property hname _ ih => exact .property (hkept _ _ hname) ih

theorem SiblingsOf.mono (hkept : NamesKept strings strings') (h : SiblingsOf strings ts f) :
    SiblingsOf strings' ts f := by
  induction h with
  | nil => exact .nil
  | nop _ ih => exact .nop ih
  | node htext hbody _ _ ihc ihn => exact .node htext (hbody.mono hkept) ihc ihn

theorem DocumentOf.mono {doc : Document} (hkept : NamesKept strings strings')
    (h : DocumentOf strings ts doc) : DocumentOf strings' ts doc := by
  cases h with
  | root before behind htext hbody hinner =>
    exact .root before behind htext (hbody.mono hkept) (hinner.mono hkept)

end Grammar

/-! ## Cutting at a node -/

/-- A node of a document with the tokens in front of it, of its properties, of its children, and
behind its end. -/
def around (pre : List Token) (name : Bytes) (body inner post : List Token) : List Token :=
  pre ++ .beginNode name :: (body ++ (inner ++ .endNode :: post))

/-- A node begins where its cut is, and the nodes inside it and behind it begin further on. -/
theorem begins_around {strings name : Bytes} {pre body inner post : List Token} {ps : List Property}
    (h : BodyOf strings body ps) :
    begins 0 (around pre name body inner post) = begins 0 pre ++ ⟨width pre⟩ ::
      begins (width (pre ++ .beginNode name :: body)) (inner ++ .endNode :: post) := by
  rw [around, begins_append, begins, begins_append, h.begins_eq_nil, width_append, width_cons,
    Nat.zero_add, List.nil_append, Nat.add_assoc]

/-- The tokens of a stored document, cut at the node of a number. Empty tokens in front of the
node's first child are counted among its properties. -/
structure NodeAt (strings : Bytes) (doc : Document) (i : Nat) (node : Node)
    (pre body inner post : List Token) : Prop where
  index : (begins 0 pre).length = i
  node? : doc.node? i = some node
  isText : Bytes.isText node.name = true
  bodyOf : BodyOf strings body node.properties
  innerOf : SiblingsOf strings inner node.children
  settled : ∀ us, inner ≠ .nop :: us
  alter : ∀ {strings' p c body' inner'}, NamesKept strings strings' →
    BodyOf strings' body' (p node.properties) → SiblingsOf strings' inner' (c node.children) →
    DocumentOf strings' (around pre node.name body' inner' post) (doc.alter p c i)

section Cut

variable {strings : Bytes} {ts : List Token}

/-- Cutting the tokens of siblings at a node, by induction on how they are stored. -/
theorem SiblingsOf.cut {f : Forest} (h : SiblingsOf strings ts f) {i : Nat} (hi : i < f.size) :
    ∃ node pre body inner post,
      ts = around pre node.name body inner post ∧
      (begins 0 pre).length = i ∧ f.node? i = some node ∧ Bytes.isText node.name = true ∧
      BodyOf strings body node.properties ∧ SiblingsOf strings inner node.children ∧
      ∀ {strings' p c body' inner'}, NamesKept strings strings' →
        BodyOf strings' body' (p node.properties) → SiblingsOf strings' inner' (c node.children) →
        SiblingsOf strings' (around pre node.name body' inner' post) (f.alter p c i) := by
  induction h generalizing i with
  | nil => cases hi
  | nop _ ih =>
    obtain ⟨node, pre, body, inner, post, hts, hindex, hnode, htext, hbody, hinner, halter⟩ := ih hi
    refine ⟨node, .nop :: pre, body, inner, post, by rw [hts]; rfl, ?_, hnode, htext, hbody,
      hinner, ?_⟩
    · have := begins_add 4 0 pre
      simp only [begins, Token.size, Nat.zero_add, Nat.add_zero] at this ⊢
      rw [this, List.length_map, hindex]
    · intro strings' p c body' inner' hk hb hc
      exact .nop (halter hk hb hc)
  | @node name body inner rest ps children next htext hbody hinner hrest ihc ihn =>
    cases i with
    | zero =>
      refine ⟨⟨name, ps, children⟩, [], body, inner, rest, by simp [around], rfl, rfl, htext, hbody,
        hinner, ?_⟩
      intro strings' p c body' inner' hk hb hc
      simpa [Forest.alter, around] using SiblingsOf.node htext hb hc (hrest.mono hk)
    | succ i =>
      by_cases hlt : i < children.size
      · -- the node is among the children
        obtain ⟨node, pre, body₁, inner₁, post, hts, hindex, hnode, htext₁, hbody₁, hinner₁,
          halter⟩ := ihc hlt
        refine ⟨node, .beginNode name :: (body ++ pre), body₁, inner₁, post ++ .endNode :: rest,
          by rw [hts]; simp [around], ?_, by simp [Forest.node?, hlt, hnode], htext₁, hbody₁, hinner₁,
          ?_⟩
        · have := begins_add ((Token.beginNode name).size + width body) 0 pre
          simp only [begins, begins_append, hbody.begins_eq_nil, Nat.zero_add, Nat.add_zero,
            List.nil_append, List.length_cons] at this ⊢
          rw [this, List.length_map, hindex]
        · intro strings' p c body' inner' hk hb hc
          have := SiblingsOf.node htext (hbody.mono hk) (halter hk hb hc) (hrest.mono hk)
          simpa [Forest.alter, hlt, around] using this
      · -- the node is one of the siblings behind, or inside one of them
        have hlt' : i - children.size < next.size := by simp only [Forest.size] at hi; omega
        obtain ⟨node, pre, body₁, inner₁, post, hts, hindex, hnode, htext₁, hbody₁, hinner₁,
          halter⟩ := ihn hlt'
        refine ⟨node, .beginNode name :: (body ++ inner ++ .endNode :: pre), body₁, inner₁, post,
          by rw [hts]; simp [around], ?_, by simp [Forest.node?, hlt, hnode], htext₁, hbody₁, hinner₁,
          ?_⟩
        · have := begins_add ((Token.beginNode name).size + width body + width inner
            + Token.endNode.size) 0 pre
          simp only [begins, begins_append, hbody.begins_eq_nil, Nat.zero_add, Nat.add_zero,
            List.nil_append, List.length_cons, List.length_append, hinner.length_begins,
            width_append, ← Nat.add_assoc] at this ⊢
          rw [this, List.length_map, hindex]
          omega
        · intro strings' p c body' inner' hk hb hc
          have := SiblingsOf.node htext (hbody.mono hk) (hinner.mono hk) (halter hk hb hc)
          simpa [Forest.alter, hlt, around] using this

theorem begins_replicate_nop (n offset : Nat) : begins offset (List.replicate n .nop) = [] := by
  induction n generalizing offset with
  | zero => rfl
  | succ n ih => exact ih _

theorem DocumentOf.cut {doc : Document} (h : DocumentOf strings ts doc) {i : Nat}
    (hi : i < doc.forest.size) :
    ∃ node pre body inner post,
      ts = around pre node.name body inner post ∧
      (begins 0 pre).length = i ∧ doc.node? i = some node ∧ Bytes.isText node.name = true ∧
      BodyOf strings body node.properties ∧ SiblingsOf strings inner node.children ∧
      ∀ {strings' p c body' inner'}, NamesKept strings strings' →
        BodyOf strings' body' (p node.properties) → SiblingsOf strings' inner' (c node.children) →
        DocumentOf strings' (around pre node.name body' inner' post) (doc.alter p c i) := by
  cases h with
  | @root name body inner ps children before behind htext hbody hinner =>
    cases i with
    | zero =>
      refine ⟨⟨name, ps, children⟩, List.replicate before Token.nop, body, inner,
        List.replicate behind Token.nop ++ [Token.finish], by simp [around],
        by simp [begins_replicate_nop], rfl, htext, hbody, hinner, ?_⟩
      intro strings' p c body' inner' hk hb hc
      simpa [Document.alter, around] using DocumentOf.root before behind htext hb hc
    | succ i =>
      have hlt : i < children.size := by
        simp only [Document.forest, Forest.size] at hi; omega
      obtain ⟨node, pre, body₁, inner₁, post, hts, hindex, hnode, htext₁, hbody₁, hinner₁, halter⟩ :=
        hinner.cut hlt
      refine ⟨node, List.replicate before Token.nop ++ Token.beginNode name :: (body ++ pre), body₁,
        inner₁, post ++ Token.endNode :: (List.replicate behind Token.nop ++ [Token.finish]),
        by rw [hts]; simp [around], ?_,
        by simp [Document.node?, Document.forest, Forest.node?, hlt, hnode], htext₁, hbody₁,
        hinner₁, ?_⟩
      · have := begins_add (width (List.replicate before .nop) + (Token.beginNode name).size
          + width body) 0 pre
        simp only [begins, begins_append, begins_replicate_nop, hbody.begins_eq_nil, Nat.zero_add,
          Nat.add_zero, List.nil_append, List.length_cons] at this ⊢
        rw [this, List.length_map, hindex]
      · intro strings' p c body' inner' hk hb hc
        have := DocumentOf.root before behind htext (hbody.mono hk) (halter hk hb hc)
        simpa [Document.alter, around] using this

theorem DocumentOf.exists_nodeAt {doc : Document} (h : DocumentOf strings ts doc) {i : Nat}
    (hi : i < doc.forest.size) :
    ∃ node pre body inner post, ts = around pre node.name body inner post ∧
      NodeAt strings doc i node pre body inner post := by
  obtain ⟨node, pre, body, inner, post, hts, hindex, hnode, htext, hbody, hinner, halter⟩ := h.cut hi
  obtain ⟨n, rest, rfl, hrest, hne⟩ := hinner.split_nops
  exact ⟨node, pre, body ++ List.replicate n .nop, rest, post, by rw [hts]; simp [around], hindex,
    hnode, htext, hbody.append_nops n, hrest, hne, halter⟩

theorem DocumentOf.length_begins {doc : Document} (h : DocumentOf strings ts doc) :
    (begins 0 ts).length = doc.forest.size := by
  cases h with
  | root before behind htext hbody hinner =>
    simp [begins, begins_replicate_nop, hbody.begins_eq_nil, hinner.length_begins, Document.forest,
      Forest.size]

end Cut

namespace NodeAt

variable {strings : Bytes} {doc : Document} {i : Nat} {node : Node}
  {pre body inner post : List Token}

theorem lt_size (h : NodeAt strings doc i node pre body inner post) : i < doc.forest.size := by
  rw [← Forest.node?_isSome_iff, ← Document.node?, h.node?]; rfl

theorem begins_getElem? (h : NodeAt strings doc i node pre body inner post) :
    (begins 0 (around pre node.name body inner post))[i]? = some ⟨width pre⟩ := by
  rw [begins_around h.bodyOf, List.getElem?_append_right (Nat.le_of_eq h.index), h.index,
    Nat.sub_self]
  rfl

end NodeAt

/-! ## Stored trees -/

namespace Tree

/-- A tree that stores a document, cut at the node of a number. -/
structure StoredAt (tree : Tree) (doc : Document) (i : Nat) (ref : NodeRef) (node : Node)
    (pre body inner post : List Token) : Prop where
  tokens : tokens? tree.structBlock = some (around pre node.name body inner post)
  cut : NodeAt tree.strings doc i node pre body inner post
  offset : ref.offset = width pre

variable {tree : Tree} {doc : Document}

theorem Stores.length_nodes (h : tree.Stores doc) : tree.nodes.length = doc.forest.size := by
  obtain ⟨ts, htokens, hdoc⟩ := h
  rw [nodes, htokens, Option.getD_some, hdoc.length_begins]

theorem Stores.size_le_length (h : tree.Stores doc) : doc.forest.size ≤ tree.structBlock.length := by
  obtain ⟨ts, htokens, hdoc⟩ := h
  rw [← hdoc.length_begins, length_of_tokens? htokens]
  exact length_begins_le 0 ts

theorem Stores.exists_storedAt (h : tree.Stores doc) {i : Nat} {ref : NodeRef}
    (href : tree.nodes[i]? = some ref) :
    ∃ node pre body inner post, tree.StoredAt doc i ref node pre body inner post := by
  have hi : i < doc.forest.size := h.length_nodes ▸ (List.getElem?_eq_some_iff.1 href).1
  obtain ⟨ts, htokens, hdoc⟩ := h
  obtain ⟨node, pre, body, inner, post, rfl, hcut⟩ := hdoc.exists_nodeAt hi
  rw [nodes, htokens, Option.getD_some, hcut.begins_getElem?, Option.some.injEq] at href
  exact ⟨node, pre, body, inner, post, htokens, hcut, congrArg NodeRef.offset href.symm⟩

end Tree

end BootTree
