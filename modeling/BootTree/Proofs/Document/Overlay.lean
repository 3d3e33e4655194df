import BootTree.Document.Basic

/-!
# BootTree.Proofs.Document.Overlay

Properties of a node before and after some of them were written. A write replaces the value of a
property or puts a new property behind the others, so whatever was there keeps its place and its
name, and only the names that are written can have other values.

* `Overlay`: properties before and after writes of which something holds.
* `Overlay.withValue`, `Overlay.trans`: one write, and one after another.
* `Overlay.getElem?`: what has become of one property.
* `Overlay.valueOf?_cases`, `Overlay.valueOf?_eq`: what is read under a name, and under one that is not
  written.
-/

namespace BootTree

/-- The second list is the first one after writes of names and values of which `may` holds. -/
inductive Overlay (may : Bytes → Bytes → Prop) : List Property → List Property → Prop where
  | nil : Overlay may [] []
  | keep {before after : List Property} (p : Property) :
      Overlay may before after → Overlay may (p :: before) (p :: after)
  | change {before after : List Property} {name new : Bytes} (old : Bytes) :
      may name new → Overlay may before after →
      Overlay may (⟨name, old⟩ :: before) (⟨name, new⟩ :: after)
  | add {after : List Property} {name new : Bytes} :
      may name new → Overlay may [] after → Overlay may [] (⟨name, new⟩ :: after)

namespace Overlay

variable {may may' : Bytes → Bytes → Prop} {before after last : List Property}

theorem refl (may : Bytes → Bytes → Prop) (properties : List Property) :
    Overlay may properties properties := by
  induction properties with
  | nil => exact .nil
  | cons p rest ih => exact .keep p ih

theorem mono (h : ∀ name value, may name value → may' name value) (ho : Overlay may before after) :
    Overlay may' before after := by
  induction ho with
  | nil => exact .nil
  | keep p _ ih => exact .keep p ih
  | change old hmay _ ih => exact .change old (h _ _ hmay) ih
  | add hmay _ ih => exact .add (h _ _ hmay) ih

theorem withValue {name value : Bytes} (h : may name value) (properties : List Property) :
    Overlay may properties (withValue name value properties) := by
  induction properties with
  | nil => exact .add h .nil
  | cons p rest ih =>
    unfold BootTree.withValue
    split
    · rename_i hname
      subst hname
      exact .change p.value h (.refl may rest)
    · exact .keep p ih

/-- Of what is written twice, the last value counts. -/
theorem trans (h : Overlay may before after) (h' : Overlay may after last) :
    Overlay may before last := by
  induction h generalizing last with
  | nil => exact h'
  | keep p _ ih =>
    cases h' with
    | keep _ hrest => exact .keep p (ih hrest)
    | change old hmay hrest => exact .change old hmay (ih hrest)
  | change old hmay _ ih =>
    cases h' with
    | keep _ hrest => exact .change old hmay (ih hrest)
    | change _ hmay' hrest => exact .change old hmay' (ih hrest)
  | add hmay _ ih =>
    cases h' with
    | keep _ hrest => exact .add hmay (ih hrest)
    | change _ hmay' hrest => exact .add hmay' (ih hrest)

/-- What has become of one property. -/
theorem getElem? (h : Overlay may before after) {k : Nat} {p : Property} (hp : before[k]? = some p) :
    ∃ value, after[k]? = some ⟨p.name, value⟩ ∧ (value = p.value ∨ may p.name value) := by
  induction h generalizing k with
  | nil => cases hp
  | keep q _ ih =>
    cases k with
    | zero =>
      cases hp
      exact ⟨p.value, rfl, .inl rfl⟩
    | succ k => exact ih hp
  | change old hmay _ ih =>
    cases k with
    | zero =>
      cases hp
      exact ⟨_, rfl, .inr hmay⟩
    | succ k => exact ih hp
  | add => cases hp

/-- What is read under a name is what was read before, or it was written. -/
theorem valueOf?_cases (h : Overlay may before after) (name : Bytes) :
    valueOf? after name = valueOf? before name ∨
      ∃ value, may name value ∧ valueOf? after name = some value := by
  induction h with
  | nil => exact .inl rfl
  | keep p _ ih =>
    unfold valueOf? at ih ⊢
    rw [List.find?_cons, List.find?_cons]
    split
    · exact .inl rfl
    · exact ih
  | @change before after changed new old hmay _ ih =>
    unfold valueOf? at ih ⊢
    by_cases hname : changed = name
    · subst hname
      exact .inr ⟨new, hmay, by rw [List.find?_cons_of_pos (by simp)]; rfl⟩
    · rw [List.find?_cons_of_neg (by simpa using hname), List.find?_cons_of_neg (by simpa using hname)]
      exact ih
  | @add after added new hmay _ ih =>
    unfold valueOf? at ih ⊢
    by_cases hname : added = name
    · subst hname
      exact .inr ⟨new, hmay, by rw [List.find?_cons_of_pos (by simp)]; rfl⟩
    · rw [List.find?_cons_of_neg (by simpa using hname)]
      exact ih

theorem valueOf?_eq {name : Bytes} (h : Overlay may before after)
    (hname : ∀ value, ¬ may name value) : valueOf? after name = valueOf? before name := by
  rcases h.valueOf?_cases name with hsame | ⟨value, hmay, -⟩
  · exact hsame
  · exact absurd hmay (hname value)

end Overlay

end BootTree
