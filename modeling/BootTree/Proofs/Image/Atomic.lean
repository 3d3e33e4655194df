import BootTree.Proofs.Image.Measured
import BootTree.Proofs.Image.Reached

/-!
# BootTree.Proofs.Image.Atomic

Edits that fail change nothing. Every edit is judged before it changes anything, whatever bytes the
blocks of a tree hold and wherever a position points.

* `Edit.Atomic`: an edit that changes nothing when it fails, and that asks for space only if there is
  too little of it and takes what it asked for.
* `Command.atomic_run`: all edits of trees are.
* `Command.unchanged_of_error`: the same of trees and of the images they are reached with.
-/

namespace BootTree

open Blob

/-- Nothing changes if the edit fails. If it fails for want of space then there was less than it
asks for, and with as much in addition it succeeds. -/
def Edit.Atomic {α : Type} (edit : Edit α) : Prop :=
  ∀ tree e after, edit tree = .error e after →
    after = tree ∧ ∀ needed, e = .noSpace needed →
      tree.free < needed ∧ ∃ a done, edit (tree.withFree (tree.free + needed)) = .ok a done

theorem Edit.Measured.atomic {α : Type} {edit : Edit α} (h : edit.Measured) : edit.Atomic := by
  intro tree e after herror
  refine ⟨(h.error herror).1, ?_⟩
  rintro needed rfl
  obtain ⟨hlacks, hother⟩ := h.noSpace herror
  exact ⟨hlacks, (hother _).1 (Nat.le_add_left _ _)⟩

theorem Edit.Atomic.discard {α : Type} {edit : Edit α} (h : edit.Atomic) :
    Edit.Atomic (discard edit) := by
  have hrun (tree : Tree) : (Functor.discard edit : Edit Unit) tree =
      (edit >>= fun _ => pure ()) tree := by
    simp only [Functor.discard, Functor.mapConst, EStateM.map, Function.comp, bind, EStateM.bind]
    cases edit tree <;> rfl
  intro tree e after herror
  rw [hrun] at herror
  cases hedit : edit tree with
  | ok a after =>
    rw [Edit.bind_of_ok hedit] at herror
    cases herror
  | error err left =>
    rw [Edit.bind_of_error hedit] at herror
    cases herror
    obtain ⟨hsame, hspace⟩ := h tree e after hedit
    refine ⟨hsame, ?_⟩
    intro needed hneeded
    obtain ⟨hfree, a, done, hdone⟩ := hspace needed hneeded
    refine ⟨hfree, (), done, ?_⟩
    rw [hrun, Edit.bind_of_ok hdone]
    rfl

namespace Tree

/-! ## Edit by edit -/

theorem atomic_grow (increment : Nat) : Edit.Atomic (grow increment) := by
  intro tree e after h
  unfold grow at h
  dsimp only at h
  split at h
  · cases h
  · split at h
    · cases h
      exact ⟨rfl, by rintro _ ⟨⟩⟩
    · cases h

theorem atomic_reserve (entry : Reservation) : Edit.Atomic (reserve entry) :=
  (measured_reserve entry).atomic

theorem atomic_setValue (node : NodeRef) (name value : Bytes) :
    Edit.Atomic (setValue node name value) := (measured_setValue node name value).atomic

theorem atomic_addChild (parent : NodeRef) (name : Bytes) :
    Edit.Atomic (addChild parent name) := (measured_addChild parent name).atomic

end Tree

/-! ## All edits -/

namespace Command

theorem atomic_run (command : Command) : command.run.Atomic := by
  cases command with
  | grow increment => exact Tree.atomic_grow increment
  | reserve entry => exact Tree.atomic_reserve entry
  | setValue node name value => exact Tree.atomic_setValue node name value
  | setCell node name cell => exact Tree.atomic_setValue node name (Bytes.word cell)
  | setDoubleCell node name cell => exact Tree.atomic_setValue node name (Bytes.doubleWord cell)
  | setCells node name cells => exact Tree.atomic_setValue node name (Cells.encode cells)
  | setText node name text => exact Tree.atomic_setValue node name (text ++ [0])
  | addChild parent name => exact (Tree.atomic_addChild parent name).discard

end Command

theorem Tree.grow_of_unlimited {tree : Tree} (h : tree.maxSize = none) (increment : Nat) :
    Tree.grow increment tree = .ok () (tree.withFree (tree.free + increment)) :=
  grow_of_mayGrow (mayGrow_of_unlimited h)

namespace Command

variable {command : Command} {tree : Tree} {e : TreeError}

theorem run_of_error {after : Tree} (h : command.run tree = .error e after) :
    after = tree ∧ ∀ needed, e = .noSpace needed →
      tree.free < needed ∧ (tree.maxSize = none →
        ∃ grown done, Tree.grow needed tree = .ok () grown ∧ command.run grown = .ok () done) := by
  obtain ⟨hsame, hspace⟩ := command.atomic_run tree e after h
  refine ⟨hsame, ?_⟩
  intro needed hneeded
  obtain ⟨hfree, _, done, hdone⟩ := hspace needed hneeded
  refine ⟨hfree, ?_⟩
  intro hunlimited
  exact ⟨_, done, Tree.grow_of_unlimited hunlimited needed, hdone⟩

theorem runInPlace_of_error {image after : Image} (hreached : Reached tree image)
    (h : command.runInPlace image = .error e after) :
    after = image ∧ ∀ needed, e = .noSpace needed →
      image.free < needed ∧ (image.maxSize = none → tree.totalSize + needed < 2 ^ 32 →
        ∃ grown done, Image.grow needed image = .ok () grown ∧
          command.runInPlace grown = .ok () done) := by
  obtain ⟨hencodable, rfl⟩ := hreached.encodable
  rw [hencodable.runInPlace] at h
  cases hrun : command.run tree with
  | ok a left =>
    rw [hrun] at h
    cases h
  | error err left =>
    rw [hrun] at h
    cases h
    obtain ⟨rfl, hspace⟩ := run_of_error hrun
    refine ⟨rfl, ?_⟩
    intro needed hneeded
    obtain ⟨hfree, hagain⟩ := hspace needed hneeded
    refine ⟨hencodable.sized.free.symm ▸ hfree, ?_⟩
    intro hunlimited hsize
    obtain ⟨grown, done, hgrow, hdone⟩ := hagain hunlimited
    have hgrown : grown.Sized := by
      rw [Tree.grow_of_unlimited hunlimited] at hgrow
      cases hgrow
      exact ⟨Tree.totalSize_grown.trans_lt hsize⟩
    refine ⟨grown.image, done.image, ?_, ?_⟩
    · rw [Tree.grow_image, hgrow]
      rfl
    · rw [hgrown.runInPlace, hdone]
      rfl

/-- **Edits are atomic.** An edit that fails leaves the tree as it was, and the bytes of an image
with their header as they were. It fails for want of space only if it asks for more than is free,
and then it succeeds once that much was added. -/
theorem unchanged_of_error (command : Command) (tree : Tree) (image : Image) :
    (∀ e after, command.run tree = .error e after →
      after = tree ∧ ∀ needed, e = .noSpace needed →
        tree.free < needed ∧ (tree.maxSize = none →
          ∃ grown done, Tree.grow needed tree = .ok () grown ∧ command.run grown = .ok () done)) ∧
    (Reached tree image → ∀ e after, command.runInPlace image = .error e after →
      after = image ∧ ∀ needed, e = .noSpace needed →
        image.free < needed ∧ (image.maxSize = none → tree.totalSize + needed < 2 ^ 32 →
          ∃ grown done, Image.grow needed image = .ok () grown ∧
            command.runInPlace grown = .ok () done)) := by
  refine ⟨?_, ?_⟩
  · intro e after h
    exact run_of_error h
  · intro hreached e after h
    exact runInPlace_of_error hreached h

/-- The first property of a tree without free space. -/
theorem unchanged_of_full : ∃ grown done,
    (setValue ⟨0⟩ [97] [1]).runInPlace (Image.empty 72) =
        .error (.noSpace 18) (Image.empty 72) ∧
      Image.grow 18 (Image.empty 72) = .ok () grown ∧
      (setValue ⟨0⟩ [97] [1]).runInPlace grown = .ok () done := by
  have hreached : Reached (Tree.empty 72) (Image.empty 72) := .empty (by decide)
  have hrun : (setValue ⟨0⟩ [97] [1]).runInPlace (Image.empty 72) =
      .error (.noSpace 18) (Image.empty 72) := by cbv
  obtain ⟨-, hspace⟩ := (unchanged_of_error (setValue ⟨0⟩ [97] [1]) (Tree.empty 72)
    (Image.empty 72)).2 hreached _ _ hrun
  obtain ⟨-, hagain⟩ := hspace 18 rfl
  obtain ⟨grown, done, hgrow, hdone⟩ := hagain rfl (by decide)
  exact ⟨grown, done, hrun, hgrow, hdone⟩

end Command

end BootTree
