import BootTree.Document.Place
import BootTree.Proofs.Blob.Strings

/-!
# BootTree.Proofs.Document.Written

Writing a document into a new tree, with a strings block that has all of its property names. Nothing
is written between its nodes and properties, and the tree stores the document.

* `Document.write`: the tree that a document is written to.
* `Document.stores_write`: it stores the document.
-/

namespace BootTree

open Blob

namespace Forest

variable (strings : Bytes)

/-- The tokens that sibling nodes are written as. -/
def tokens : Forest → List Token
  | nil => []
  | node name properties children next =>
    .beginNode name :: (properties.map (fun p =>
        .property (UInt32.ofNat ((Strings.find? strings p.name).getD 0)) p.value) ++
      children.tokens ++ .endNode :: next.tokens)

/-- Whether a strings block has all property names, and names and values can be written. -/
def isWritable : Forest → Bool
  | nil => true
  | node name properties children next =>
    Bytes.isText name && !name.contains 0 &&
      properties.all (fun p => !p.name.contains 0 && (Strings.find? strings p.name).isSome &&
        decide (p.value.length < 2 ^ 32)) &&
      children.isWritable && next.isWritable

variable {strings}

theorem bodyOf_tokens (hsize : strings.length < 2 ^ 32) {properties : List Property}
    (h : ∀ p ∈ properties, 0 ∉ p.name ∧ (Strings.find? strings p.name).isSome = true) :
    BodyOf strings (properties.map fun p =>
      .property (UInt32.ofNat ((Strings.find? strings p.name).getD 0)) p.value) properties := by
  induction properties with
  | nil => exact .nil
  | cons p ps ih =>
    obtain ⟨hname, hfound⟩ := h p List.mem_cons_self
    obtain ⟨offset, hoffset⟩ := Option.isSome_iff_exists.1 hfound
    have hlt := (Strings.find?_bound hoffset).1
    have hothers : ∀ q ∈ ps, 0 ∉ q.name ∧ (Strings.find? strings q.name).isSome = true := by
      intro q hq
      exact h q (List.mem_cons_of_mem _ hq)
    refine .property ?_ (ih hothers)
    rw [hoffset, Option.getD_some, UInt32.toNat_ofNat', Nat.mod_eq_of_lt (by omega)]
    exact Strings.read_of_find? hoffset hname

theorem isWritable_node {name : Bytes} {properties : List Property} {children next : Forest}
    (h : (node name properties children next).isWritable strings = true) :
    Bytes.isText name = true ∧ 0 ∉ name ∧
      (∀ p ∈ properties, (0 ∉ p.name ∧ (Strings.find? strings p.name).isSome = true) ∧
        p.value.length < 2 ^ 32) ∧
      children.isWritable strings = true ∧ next.isWritable strings = true := by
  simp only [isWritable, Bool.and_eq_true, Bool.not_eq_true', List.all_eq_true,
    decide_eq_true_eq, List.contains_eq_mem, decide_eq_false_iff_not] at h
  obtain ⟨⟨⟨⟨htext, hname⟩, hproperties⟩, hchildren⟩, hnext⟩ := h
  exact ⟨htext, hname, hproperties, hchildren, hnext⟩

theorem siblingsOf_tokens (hsize : strings.length < 2 ^ 32) {f : Forest}
    (h : f.isWritable strings = true) : SiblingsOf strings (f.tokens strings) f := by
  induction f with
  | nil => exact .nil
  | node name properties children next ihc ihn =>
    obtain ⟨htext, -, hproperties, hchildren, hnext⟩ := isWritable_node h
    have hnames : ∀ p ∈ properties, 0 ∉ p.name ∧ (Strings.find? strings p.name).isSome = true := by
      intro p hp
      exact (hproperties p hp).1
    exact .node htext (bodyOf_tokens hsize hnames) (ihc hchildren) (ihn hnext)

theorem isStorable_of_mem_tokens {f : Forest} (h : f.isWritable strings = true) {t : Token}
    (ht : t ∈ f.tokens strings) : t.IsStorable := by
  induction f with
  | nil => cases ht
  | node name properties children next ihc ihn =>
    obtain ⟨-, hname, hproperties, hchildren, hnext⟩ := isWritable_node h
    simp only [tokens, List.mem_cons, List.mem_append, List.mem_map] at ht
    rcases ht with rfl | (⟨p, hp, rfl⟩ | ht) | rfl | ht
    · exact hname
    · exact (hproperties p hp).2
    · exact ihc hchildren ht
    · trivial
    · exact ihn hnext ht

end Forest

namespace Document

def write (doc : Document) (strings : Bytes) (free : Nat) : Tree where
  bootCpu := 0
  reservations := []
  structBlock := (doc.forest.tokens strings ++ [Token.finish]).flatMap Token.encode
  strings := strings
  free := free
  maxSize := none

theorem stores_write {doc : Document} {strings : Bytes} (hsize : strings.length < 2 ^ 32)
    (h : doc.forest.isWritable strings = true) (free : Nat) :
    (doc.write strings free).Stores doc := by
  have hstorable : ∀ t ∈ doc.forest.tokens strings ++ [Token.finish], t.IsStorable := by
    intro t ht
    rcases List.mem_append.1 ht with ht | ht
    · exact Forest.isStorable_of_mem_tokens h ht
    · obtain rfl := List.mem_singleton.1 ht
      trivial
  obtain ⟨htext, -, hproperties, hchildren, -⟩ := Forest.isWritable_node h
  have hnames : ∀ p ∈ doc.properties, 0 ∉ p.name ∧ (Strings.find? strings p.name).isSome = true := by
    intro p hp
    exact (hproperties p hp).1
  have hroot := DocumentOf.root 0 0 htext (Forest.bodyOf_tokens hsize hnames)
    (Forest.siblingsOf_tokens hsize hchildren)
  refine ⟨_, tokens?_encode hstorable, ?_⟩
  simpa [forest, Forest.tokens, write] using hroot

end Document

end BootTree
