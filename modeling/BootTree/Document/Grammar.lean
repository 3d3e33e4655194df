import BootTree.Document.Basic
import BootTree.Tree.Basic

/-!
# BootTree.Document.Grammar

When a structure block is well-formed, and which document it stores. The block is read as a list of
tokens; the grammar says which lists of tokens store which documents. Empty tokens may stand between
any two others.

* `tokens?` — the tokens of a block; `tokens?_encode` reads back what was written.
* `BodyOf`, `SiblingsOf`, `DocumentOf` — the grammar of properties, of sibling nodes, and of a whole
  block.
* `Tree.Stores`, `Tree.WellFormed` — a tree stores a document; a tree is well-formed if it stores
  one.
-/

namespace BootTree

open Blob

/-! ## Tokens -/

def tokens? (bytes : Bytes) : Option (List Token) :=
  if bytes = [] then some []
  else
    match _h : Token.read? bytes with
    | none => none
    | some token => (tokens? (bytes.drop token.size)).map (token :: ·)
termination_by bytes.length
decreasing_by exact Token.length_drop_lt_of_read? _h

theorem tokens?_encode {tokens : List Token} (h : ∀ t ∈ tokens, t.IsStorable) :
    tokens? (tokens.flatMap Token.encode) = some tokens := by
  induction tokens with
  | nil => simp [tokens?]
  | cons t ts ih =>
    have hread : Token.read? (t.encode ++ ts.flatMap Token.encode) = some t :=
      Token.read?_encode_append (h t List.mem_cons_self) _
    have hdrop : (t.encode ++ ts.flatMap Token.encode).drop t.size = ts.flatMap Token.encode :=
      List.drop_left' t.length_encode
    have hne : t.encode ++ ts.flatMap Token.encode ≠ [] := by
      intro hnil
      have := congrArg List.length hnil
      have := t.four_le_size
      simp at *
      omega
    rw [List.flatMap_cons, tokens?, if_neg hne]
    split
    · rename_i heq; rw [hread] at heq; cases heq
    · rename_i heq
      rw [hread] at heq
      cases heq
      rw [hdrop, ih fun t ht => h t (List.mem_cons_of_mem _ ht)]
      rfl

/-! ## Grammar -/

section Grammar

variable (strings : Bytes)

/-- Tokens that store the properties of one node. -/
inductive BodyOf : List Token → List Property → Prop where
  | nil : BodyOf [] []
  | nop {ts ps} : BodyOf ts ps → BodyOf (.nop :: ts) ps
  | property {nameOffset value name ts ps} : Strings.read strings nameOffset.toNat = .ok name →
      BodyOf ts ps → BodyOf (.property nameOffset value :: ts) (⟨name, value⟩ :: ps)

/-- Tokens that store sibling nodes. -/
inductive SiblingsOf : List Token → Forest → Prop where
  | nil : SiblingsOf [] .nil
  | nop {ts f} : SiblingsOf ts f → SiblingsOf (.nop :: ts) f
  | node {name body inner rest ps children next} : Bytes.isText name = true →
      BodyOf strings body ps → SiblingsOf inner children → SiblingsOf rest next →
      SiblingsOf (.beginNode name :: (body ++ inner ++ .endNode :: rest))
        (.node name ps children next)

/-- Tokens that store a document: one node and the end, with only empty tokens around them. -/
inductive DocumentOf : List Token → Document → Prop where
  | root {name body inner ps children} (before behind : Nat) : Bytes.isText name = true →
      BodyOf strings body ps → SiblingsOf strings inner children →
      DocumentOf
        (List.replicate before .nop ++ .beginNode name :: (body ++ inner ++ .endNode ::
          (List.replicate behind .nop ++ [.finish])))
        ⟨name, ps, children⟩

end Grammar

namespace Tree

/-- The tree stores this document. -/
def Stores (tree : Tree) (doc : Document) : Prop :=
  ∃ tokens, tokens? tree.structBlock = some tokens ∧ DocumentOf tree.strings tokens doc

def WellFormed (tree : Tree) : Prop := ∃ doc, tree.Stores doc

theorem stores_empty (size : Nat) : (empty size).Stores ⟨[], [], .nil⟩ := by
  refine ⟨[.beginNode [], .endNode, .finish], ?_, ?_⟩
  · have := @tokens?_encode [.beginNode [], .endNode, .finish] (by simp [Token.IsStorable])
    simpa [empty, ofBlocks, emptyStructure, List.append_assoc] using this
  · exact .root 0 0 (Bytes.isText_ofText "") .nil .nil

theorem wellFormed_empty (size : Nat) : (empty size).WellFormed := ⟨_, stores_empty size⟩

end Tree

end BootTree
