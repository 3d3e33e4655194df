import BootTree.Proofs.Fixup.Growth
import BootTree.Proofs.Image.Measured

/-!
# BootTree.Proofs.Image.Growing

Growing a tree before an edit or after it. The blob that is left is the same, byte for byte, whether
it grows before an edit that succeeds or after it, and an edit that fails for another reason than
want of space also fails in the larger tree. So nothing is lost by growing only when an edit failed.

* `Insertion`: the edits that may need space, of trees and of images.
* `Insertion.exists_last`, `Insertion.error_again`: an edit of a blob that has grown.
* `Ending`, `EndsBy`: how an edit ends if the tree may grow once for it.
  `Edit.Measured.exists_endsBy`, `EndsBy.unique`: it ends in exactly one of these ways.
* `Insertion.grow_comm`: growing first or last, and growing only when it is needed.
-/

namespace BootTree

open Blob

/-! ## The edits in question -/

/-- An edit that may need free space, with the type of its answer. -/
inductive Insertion : Type → Type where
  | reserve (entry : Reservation) : Insertion Unit
  | setValue (node : NodeRef) (name value : Bytes) : Insertion Unit
  | addChild (parent : NodeRef) (name : Bytes) : Insertion NodeRef

namespace Insertion

variable {α : Type}

def run : Insertion α → Edit α
  | reserve entry => Tree.reserve entry
  | setValue node name value => Tree.setValue node name value
  | addChild parent name => Tree.addChild parent name

def runInPlace : Insertion α → InPlace α
  | reserve entry => Image.reserve entry
  | setValue node name value => Image.setValue node name value
  | addChild parent name => Image.addChild parent name

theorem runInPlace_image {tree : Tree} (h : tree.Sized) (e : Insertion α) :
    e.runInPlace tree.image = imaged (e.run tree) := by
  cases e with
  | reserve entry => exact h.reserve entry
  | setValue node name value => exact h.setValue node name value
  | addChild parent name => exact h.addChild parent name

theorem measured (e : Insertion α) : e.run.Measured := by
  cases e with
  | reserve entry => exact Tree.measured_reserve entry
  | setValue node name value => exact Tree.measured_setValue node name value
  | addChild parent name => exact Tree.measured_addChild parent name

/-! ## Growing first or last -/

theorem grow_image_of_mayGrow {tree : Tree} {k : Nat} (h : tree.MayGrow k) :
    Image.grow k tree.image = .ok () (tree.withFree (tree.free + k)).image := by
  rw [Tree.grow_image, Tree.grow_of_mayGrow h]
  rfl

/-- The blob grows either before or after an edit that succeeds. -/
theorem exists_last (e : Insertion α) {tree : Tree} {k : Nat} {a : α} {after : Image}
    (hsize : tree.totalSize + k < 2 ^ 32) (hgrow : tree.MayGrow k)
    (h : e.runInPlace tree.image = .ok a after) :
    ∃ last, e.runInPlace (tree.withFree (tree.free + k)).image = .ok a last ∧
      Image.grow k after = .ok () last := by
  have hsized : tree.Sized := ⟨by omega⟩
  have hgrown : (tree.withFree (tree.free + k)).Sized :=
    ⟨Tree.totalSize_grown.trans_lt hsize⟩
  rw [e.runInPlace_image hsized] at h
  cases hrun : e.run tree with
  | error err left =>
    rw [hrun] at h
    cases h
  | ok b left =>
    rw [hrun] at h
    cases h
    obtain ⟨htotal, hmax, hagain⟩ := e.measured.ok hrun
    have hleft : left.MayGrow k := by
      intro limit hlimit
      rw [htotal]
      exact hgrow limit (hmax ▸ hlimit)
    refine ⟨(left.withFree (left.free + k)).image, ?_, grow_image_of_mayGrow hleft⟩
    rw [e.runInPlace_image hgrown, hagain]
    rfl

/-- An edit that does not lack space fails in the larger blob as it did in the smaller one. -/
theorem error_again (e : Insertion α) {tree : Tree} {k : Nat} {err : TreeError} {after : Image}
    (hsize : tree.totalSize + k < 2 ^ 32) (h : e.runInPlace tree.image = .error err after)
    (hspace : ∀ needed, err ≠ .noSpace needed) :
    after = tree.image ∧ e.runInPlace (tree.withFree (tree.free + k)).image =
      .error err (tree.withFree (tree.free + k)).image := by
  have hsized : tree.Sized := ⟨by omega⟩
  have hgrown : (tree.withFree (tree.free + k)).Sized :=
    ⟨Tree.totalSize_grown.trans_lt hsize⟩
  rw [e.runInPlace_image hsized] at h
  cases hrun : e.run tree with
  | ok b left =>
    rw [hrun] at h
    cases h
  | error err' left =>
    rw [hrun] at h
    cases h
    obtain ⟨rfl, hagain⟩ := e.measured.error hrun
    refine ⟨rfl, ?_⟩
    rw [e.runInPlace_image hgrown, hagain hspace]
    rfl

end Insertion

/-! ## Growing only for an edit that needs it -/

/-- How an edit ends for which the tree may grow once. -/
inductive Ending where
  | own
  | limited
  | retried
  deriving DecidableEq

/-- The answer of an edit for which the tree may grow once, and the tree afterwards, with the reason
for them: the edit did not lack space; or it did and a limit does not let the tree grow; or it was
made a second time in the larger tree. -/
def EndsBy {α : Type} (e : Edit α) (tree : Tree) (outcome : Except TreeError α × Tree) :
    Ending → Prop
  | .own => (∀ needed after, e tree ≠ .error (.noSpace needed) after) ∧
      outcome = Fixup.result (Fixup.edit e) tree
  | .limited => ∃ needed limit, e tree = .error (.noSpace needed) tree ∧
      tree.maxSize = some limit ∧ limit < tree.totalSize + growIncrement ∧
      outcome = (.error (.sizeLimit (tree.totalSize + growIncrement) limit), tree)
  | .retried => ∃ needed, e tree = .error (.noSpace needed) tree ∧ tree.MayGrow growIncrement ∧
      let grown := tree.withFree (tree.free + growIncrement)
      outcome = Fixup.result (Fixup.edit e) grown ∧
        ((∃ a after, outcome = (.ok a, after)) ∨ outcome = (.error (.noSpace needed), grown))

namespace Edit.Measured

variable {α : Type} {e : Edit α} {tree : Tree}

theorem exists_endsBy (h : e.Measured) (tree : Tree) :
    ∃ ending, EndsBy e tree ((withGrowth e).result tree) ending := by
  cases hfirst : e tree with
  | ok a after =>
    refine ⟨.own, ?_, ?_⟩
    · rintro needed left hlacks
      rw [hfirst] at hlacks
      cases hlacks
    · rw [result_withGrowth_of_ok hfirst, Fixup.result_edit_of_ok hfirst]
  | error err after =>
    obtain ⟨rfl, -⟩ := h.error hfirst
    by_cases hspace : ∃ needed, err = .noSpace needed
    swap
    · have hother := not_exists.1 hspace
      refine ⟨.own, ?_, ?_⟩
      · rintro needed left hlacks
        rw [hfirst] at hlacks
        cases hlacks
        exact hother needed rfl
      · rw [result_withGrowth_of_error hother hfirst, Fixup.result_edit_of_error hfirst]
    obtain ⟨needed, rfl⟩ := hspace
    rw [result_withGrowth_of_noSpace hfirst]
    by_cases hgrow : after.MayGrow growIncrement
    · refine ⟨.retried, needed, hfirst, hgrow, ?_⟩
      rw [Tree.grow_of_mayGrow hgrow]
      refine ⟨rfl, ?_⟩
      obtain ⟨henough, hlacks⟩ := (h.noSpace hfirst).2 (after.free + growIncrement)
      rcases Nat.lt_or_ge (after.free + growIncrement) needed with hless | hmore
      · exact .inr (Fixup.result_edit_of_error (hlacks hless))
      · obtain ⟨a, done, hdone⟩ := henough hmore
        exact .inl ⟨a, done, Fixup.result_edit_of_ok hdone⟩
    · obtain ⟨limit, hlimit, hlarge, hrefused⟩ := Tree.grow_of_not_mayGrow hgrow
      refine ⟨.limited, needed, limit, hfirst, hlimit, hlarge, ?_⟩
      rw [hrefused]

end Edit.Measured

/-- The ways to end exclude each other. -/
theorem EndsBy.unique {α : Type} {e : Edit α} {tree : Tree} {outcome : Except TreeError α × Tree}
    {ending ending' : Ending} (h : EndsBy e tree outcome ending)
    (h' : EndsBy e tree outcome ending') : ending = ending' := by
  have hgrows {limit : Nat} (hlimit : tree.maxSize = some limit)
      (hlarge : limit < tree.totalSize + growIncrement) : ¬ tree.MayGrow growIncrement :=
    fun hgrow => Nat.not_le.2 hlarge (hgrow limit hlimit)
  cases ending with
  | own =>
    cases ending' with
    | own => rfl
    | limited =>
      obtain ⟨needed, _, hlacks, -⟩ := h'
      exact absurd hlacks (h.1 needed tree)
    | retried =>
      obtain ⟨needed, hlacks, -⟩ := h'
      exact absurd hlacks (h.1 needed tree)
  | limited =>
    obtain ⟨needed, limit, hlacks, hlimit, hlarge, -⟩ := h
    cases ending' with
    | own => exact absurd hlacks (h'.1 needed tree)
    | limited => rfl
    | retried =>
      obtain ⟨_, -, hgrow, -⟩ := h'
      exact absurd hgrow (hgrows hlimit hlarge)
  | retried =>
    obtain ⟨needed, hlacks, hgrow, -⟩ := h
    cases ending' with
    | own => exact absurd hlacks (h'.1 needed tree)
    | limited =>
      obtain ⟨_, limit, -, hlimit, hlarge, -⟩ := h'
      exact absurd hgrow (hgrows hlimit hlarge)
    | retried => rfl

namespace Insertion

/-- **Growing first or last.** In a blob laid out without gaps, free space only decides whether an
edit succeeds: where it does, growing the blob before it or after it leaves the same bytes, and where
it fails for another reason it does so in the larger blob as well. So growing the tree only for an
edit that lacks space ends in exactly one way: with the edit's own outcome; with the tree as it was,
since its limit is in the way; or with the outcome in the tree that was grown once, which is success
or still too little space and nothing but the growth. -/
theorem grow_comm {α : Type} (e : Insertion α) (tree : Tree) :
    (∀ k, tree.totalSize + k < 2 ^ 32 → tree.MayGrow k →
      ∃ grown, Image.grow k tree.image = .ok () grown ∧
        (∀ a after, e.runInPlace tree.image = .ok a after →
          ∃ last, e.runInPlace grown = .ok a last ∧ Image.grow k after = .ok () last) ∧
        ∀ err after, e.runInPlace tree.image = .error err after →
          (∀ needed, err ≠ .noSpace needed) →
            after = tree.image ∧ e.runInPlace grown = .error err grown) ∧
    ∃! ending, EndsBy e.run tree ((withGrowth e.run).result tree) ending := by
  refine ⟨?_, ?_⟩
  · intro k hsize hgrow
    refine ⟨_, grow_image_of_mayGrow hgrow, ?_, ?_⟩
    · intro a after h
      exact e.exists_last hsize hgrow h
    · intro err after h hspace
      exact e.error_again hsize h hspace
  · obtain ⟨ending, hending⟩ := e.measured.exists_endsBy tree
    exact ⟨ending, hending, fun _ hother => hother.unique hending⟩

/-- What a property and its name leave of a tree with just enough space for them. -/
def filled : Tree where
  bootCpu := 0
  reservations := []
  structBlock := ([.beginNode [], .property 0 [1], .endNode, .finish] :
    List Token).flatMap Token.encode
  strings := [97, 0]
  free := 0
  maxSize := none

theorem grow_comm_filled : ∃ grown last,
    (setValue ⟨0⟩ [97] [1]).runInPlace (Tree.empty 90).image = .ok () filled.image ∧
      Image.grow 6 (Tree.empty 90).image = .ok () grown ∧
      (setValue ⟨0⟩ [97] [1]).runInPlace grown = .ok () last ∧
      Image.grow 6 filled.image = .ok () last ∧
      (addChild ⟨4⟩ [97]).runInPlace grown = .error (.badOffset 4) grown := by
  have hsize : (Tree.empty 90).totalSize + 6 < 2 ^ 32 := by decide
  have hgrow : (Tree.empty 90).MayGrow 6 := by rintro limit ⟨⟩
  have hset : (setValue ⟨0⟩ [97] [1]).runInPlace (Tree.empty 90).image =
      .ok () filled.image := by
    rw [runInPlace]
    cbv
  have hadd : (addChild ⟨4⟩ [97]).runInPlace (Tree.empty 90).image =
      .error (.badOffset 4) (Tree.empty 90).image := by
    rw [runInPlace]
    cbv
  obtain ⟨grown, hgrown, hok, -⟩ :=
    (grow_comm (setValue ⟨0⟩ [97] [1]) (Tree.empty 90)).1 6 hsize hgrow
  obtain ⟨grown', hgrown', -, herror⟩ :=
    (grow_comm (addChild ⟨4⟩ [97]) (Tree.empty 90)).1 6 hsize hgrow
  obtain ⟨last, hlast, hafter⟩ := hok () filled.image hset
  rw [hgrown] at hgrown'
  cases hgrown'
  exact ⟨grown, last, hset, hgrown, hlast, hafter, (herror _ _ hadd (by rintro _ ⟨⟩)).2⟩

end Insertion

end BootTree
