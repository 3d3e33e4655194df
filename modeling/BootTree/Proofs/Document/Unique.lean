import BootTree.Document.Grammar

/-!
# BootTree.Proofs.Document.Unique

A tree stores at most one document. Empty tokens may be counted among the properties of a node or
in front of its children, so the grammar derives one document in several ways; without empty tokens
there is only one way, and leaving them out changes no document.

* `SiblingsOf.dropNops`: the same siblings without empty tokens.
* `SiblingsOf.unique`, `Tree.Stores.unique`: tokens store one document only.
-/

namespace BootTree

open Blob

def isNop : Token → Bool
  | .nop => true
  | _ => false

def dropNops (ts : List Token) : List Token := ts.filter (!isNop ·)

@[simp] theorem dropNops_append (s t : List Token) : dropNops (s ++ t) = dropNops s ++ dropNops t :=
  List.filter_append ..

@[simp] theorem dropNops_replicate (n : Nat) : dropNops (List.replicate n .nop) = [] := by
  simp [dropNops, isNop]

theorem dropNops_cons {t : Token} (h : isNop t = false) (ts : List Token) :
    dropNops (t :: ts) = t :: dropNops ts := by
  simp [dropNops, h]

section Grammar

variable {strings : Bytes} {ts : List Token} {ps : List Property} {f : Forest}

theorem BodyOf.dropNops (h : BodyOf strings ts ps) : BodyOf strings (dropNops ts) ps := by
  induction h with
  | nil => exact .nil
  | nop _ ih => exact ih
  | property hname _ ih => exact .property hname ih

theorem SiblingsOf.dropNops (h : SiblingsOf strings ts f) : SiblingsOf strings (dropNops ts) f := by
  induction h with
  | nil => exact .nil
  | nop _ ih => exact ih
  | node htext hbody _ _ ihc ihn =>
    have := SiblingsOf.node htext hbody.dropNops ihc ihn
    rw [dropNops_cons rfl, dropNops_append, dropNops_append, dropNops_cons rfl]
    exact this

theorem nop_not_mem_dropNops (ts : List Token) : .nop ∉ dropNops ts := by
  simp [dropNops, isNop]

/-- What can stand behind the properties of a node when there are no empty tokens. -/
def EndsBody : List Token → Prop
  | .beginNode _ :: _ | .endNode :: _ => True
  | _ => False

theorem SiblingsOf.endsBody (h : SiblingsOf strings ts f) (hnop : .nop ∉ ts) (rest : List Token) :
    EndsBody (ts ++ .endNode :: rest) := by
  cases h with
  | nil => trivial
  | nop _ => exact absurd List.mem_cons_self hnop
  | node _ _ _ _ => trivial

/-- Without empty tokens the properties of a node end where the rest begins. -/
theorem BodyOf.unique {ts' rest rest' : List Token} {ps' : List Property}
    (h : BodyOf strings ts ps) (h' : BodyOf strings ts' ps') (hnop : .nop ∉ ts) (hnop' : .nop ∉ ts')
    (hrest : EndsBody rest) (hrest' : EndsBody rest') (heq : ts ++ rest = ts' ++ rest') :
    ps = ps' ∧ rest = rest' := by
  induction h generalizing ts' ps' with
  | nil =>
    cases h' with
    | nil => exact ⟨rfl, heq⟩
    | nop _ => exact absurd List.mem_cons_self hnop'
    | property _ _ => subst heq; exact hrest.elim
  | nop _ _ => exact absurd List.mem_cons_self hnop
  | property hname _ ih =>
    cases h' with
    | nil => obtain rfl : _ = rest' := heq; exact hrest'.elim
    | nop _ => exact absurd List.mem_cons_self hnop'
    | property hname' hbody' =>
      simp only [List.cons_append, List.cons.injEq, Token.property.injEq] at heq
      obtain ⟨⟨rfl, rfl⟩, heq⟩ := heq
      rw [hname, Except.ok.injEq] at hname'
      obtain ⟨rfl, rfl⟩ := ih hbody' (List.not_mem_of_not_mem_cons hnop)
        (List.not_mem_of_not_mem_cons hnop') heq
      exact ⟨by rw [hname'], rfl⟩

theorem SiblingsOf.unique {ts' rest rest' : List Token} {f' : Forest}
    (h : SiblingsOf strings ts f) (h' : SiblingsOf strings ts' f') (hnop : .nop ∉ ts)
    (hnop' : .nop ∉ ts') (heq : ts ++ .endNode :: rest = ts' ++ .endNode :: rest') :
    f = f' ∧ rest = rest' := by
  induction h generalizing ts' f' rest rest' with
  | nil =>
    cases h' with
    | nil => simpa using heq
    | nop _ => exact absurd List.mem_cons_self hnop'
    | node _ _ _ _ => simp at heq
  | nop _ _ => exact absurd List.mem_cons_self hnop
  | @node name body inner behind ps children next htext hbody hinner hnext ihc ihn =>
    cases h' with
    | nil => simp at heq
    | nop _ => exact absurd List.mem_cons_self hnop'
    | @node name' body' inner' behind' ps' children' next' htext' hbody' hinner' hnext' =>
      simp only [List.mem_cons, List.mem_append, not_or] at hnop hnop'
      simp only [List.cons_append, List.append_assoc, List.cons.injEq, Token.beginNode.injEq] at heq
      obtain ⟨rfl, heq⟩ := heq
      obtain ⟨rfl, hrest⟩ := hbody.unique hbody' hnop.2.1.1 hnop'.2.1.1
        (hinner.endsBody hnop.2.1.2 _) (hinner'.endsBody hnop'.2.1.2 _) heq
      obtain ⟨rfl, hbehind⟩ := ihc hinner' hnop.2.1.2 hnop'.2.1.2 hrest
      obtain ⟨rfl, hend⟩ := ihn hnext' hnop.2.2.2 hnop'.2.2.2 hbehind
      exact ⟨rfl, hend⟩

theorem DocumentOf.unique {doc doc' : Document} (h : DocumentOf strings ts doc)
    (h' : DocumentOf strings ts doc') : doc = doc' := by
  generalize hts : ts = us at h'
  cases h with
  | @root name body inner ps children before behind htext hbody hinner =>
    cases h' with
    | @root name' body' inner' ps' children' before' behind' htext' hbody' hinner' =>
      have heq := congrArg BootTree.dropNops hts
      rw [dropNops_append, dropNops_append, dropNops_replicate, dropNops_replicate, List.nil_append,
        List.nil_append, dropNops_cons rfl, dropNops_cons rfl, dropNops_append, dropNops_append,
        dropNops_append, dropNops_append, dropNops_cons rfl, dropNops_cons rfl,
        List.append_assoc, List.append_assoc] at heq
      simp only [List.cons.injEq, Token.beginNode.injEq] at heq
      obtain ⟨rfl, heq⟩ := heq
      have hbodyNop := nop_not_mem_dropNops body
      have hbodyNop' := nop_not_mem_dropNops body'
      have hinnerNop := nop_not_mem_dropNops inner
      have hinnerNop' := nop_not_mem_dropNops inner'
      obtain ⟨rfl, hrest⟩ := hbody.dropNops.unique hbody'.dropNops hbodyNop hbodyNop'
        (hinner.dropNops.endsBody hinnerNop _) (hinner'.dropNops.endsBody hinnerNop' _) heq
      obtain ⟨rfl, -⟩ := hinner.dropNops.unique hinner'.dropNops hinnerNop hinnerNop' hrest
      rfl

end Grammar

/-- A tree stores at most one document. -/
theorem Tree.Stores.unique {tree : Tree} {doc doc' : Document} (h : tree.Stores doc)
    (h' : tree.Stores doc') : doc = doc' := by
  obtain ⟨ts, hts, hdoc⟩ := h
  obtain ⟨ts', hts', hdoc'⟩ := h'
  rw [hts, Option.some.injEq] at hts'
  subst hts'
  exact hdoc.unique hdoc'

theorem Tree.Stores.stores_iff {tree : Tree} {doc : Document} (h : tree.Stores doc)
    (doc' : Document) : tree.Stores doc' ↔ doc' = doc := by
  constructor
  · intro hstores
    exact hstores.unique h
  · rintro rfl
    exact h

end BootTree
