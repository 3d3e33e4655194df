import BootTree.Proofs.Image.Reached

/-!
# BootTree.Proofs.Image.Recorded

The reservations over whole histories of edits. The block of reservations has no length: a reader
stops at the first entry that is all zero. The block itself has all entries that were ever added, in
order, also behind one that is all zero; what a reader sees are the entries in front of it. So adding
an entry is seen exactly if it is not all zero itself and none was before it.

* `Recorded`: trees and images that the same edits lead to, with all entries added so far.
* `Recorded.reservations`: the invariant, one step being `Tree.reservations_run`.
* `Recorded.reserved_eq_takeWhile`: what is seen of the entries, now and after reading the blob again.
-/

namespace BootTree

open Blob

/-- Trees and images that the same edits lead to, as long as sizes are words, and the entries of their
reservations: those of the blob that they were read from, then one for each call that added one. -/
inductive Recorded : Tree → Image → List Reservation → Prop where
  | empty {size : Nat} : size < 2 ^ 32 → Recorded (Tree.empty size) (Image.empty size) []
  | read {blob : Bytes} {size : Nat} {tree : Tree} {image : Image} :
      Tree.read blob size = .ok tree → Image.read blob size = .ok image →
      tree.totalSize < 2 ^ 32 → Recorded tree image tree.reserved
  | limit {tree : Tree} {image : Image} {entries : List Reservation} (limit : Nat) :
      Recorded tree image entries →
      Recorded (tree.withMaxSize limit) (image.withMaxSize limit) entries
  | edit {tree : Tree} {image : Image} {entries : List Reservation} (command : Command) :
      Recorded tree image entries → (afterwards (command.run tree)).totalSize < 2 ^ 32 →
      Recorded (afterwards (command.run tree)) (afterwards (command.runInPlace image))
        (entries ++ command.added (command.runInPlace image))

theorem afterwards_imaged {α : Type} (result : EStateM.Result TreeError Tree α) :
    afterwards (imaged result) = (afterwards result).image := by
  cases result <;> rfl

theorem Command.added_imaged (command : Command) (result : EStateM.Result TreeError Tree Unit) :
    command.added (imaged result) = command.added result := by
  cases command <;> cases result <;> rfl

namespace Recorded

variable {tree : Tree} {image : Image} {entries : List Reservation}

/-- The block has all entries, whatever stands in front of them. -/
theorem reservations (h : Recorded tree image entries) :
    tree.Sized ∧ image = tree.image ∧ tree.reservations = entries := by
  induction h with
  | @empty size hsize =>
    obtain ⟨hencodable, himage⟩ := (Reached.empty hsize).encodable
    exact ⟨hencodable.sized, himage, rfl⟩
  | @read blob size tree image htree himage hsize =>
    obtain ⟨hencodable, himage⟩ := (Reached.read htree himage hsize).encodable
    exact ⟨hencodable.sized, himage, (Tree.reserved_eq hencodable.entries).symm⟩
  | limit limit _ ih =>
    obtain ⟨hsized, rfl, hentries⟩ := ih
    exact ⟨⟨hsized.size⟩, rfl, hentries⟩
  | edit command _ hsize ih =>
    obtain ⟨hsized, rfl, rfl⟩ := ih
    rw [hsized.runInPlace, Command.added_imaged, afterwards_imaged]
    exact ⟨⟨hsize⟩, rfl, Tree.reservations_run command _⟩

/-- Reading the blob again gives what was seen before. -/
theorem exists_read (h : Recorded tree image entries) : ∃ reread,
    Tree.read image.bytes 0 = .ok reread ∧ Image.read image.bytes 0 = .ok reread.image ∧
      reread.reserved = tree.reserved := by
  obtain ⟨hsized, rfl, rfl⟩ := h.reservations
  refine ⟨_, hsized.read_encode 0, ?_, ?_⟩
  · rw [Image.read_eq]
    exact congrArg (Except.map Tree.image) (hsized.read_encode 0)
  · exact Tree.reserved_eq (Reservation.terminator_notMem_takeWhile _)

end Recorded

/-! ## What is seen of the entries -/

/-- One more reservation is seen exactly if neither it nor one in front of it is all zero. -/
theorem Tree.reserved_append_iff {tree after : Tree} {entry : Reservation}
    (h : after.reservations = tree.reservations ++ [entry]) :
    after.reserved = tree.reserved ++ [entry] ↔
      entry ≠ Reservation.terminator ∧ Reservation.terminator ∉ tree.reservations := by
  constructor
  · intro hseen
    have hentry : entry ∈ after.reserved := by
      rw [hseen]
      exact List.mem_append_right _ List.mem_cons_self
    refine ⟨by simpa using List.mem_takeWhile_imp hentry, ?_⟩
    rw [reserved, h, List.takeWhile_append] at hseen
    split at hseen
    · rename_i hlength
      exact reserved_eq_iff.1 ((List.takeWhile_prefix _).eq_of_length hlength)
    · -- what is seen of the longer list is what was seen before, which is no entry longer
      have hlength := congrArg List.length hseen
      rw [← reserved, List.length_append, List.length_singleton] at hlength
      omega
  · rintro ⟨hentry, hnone⟩
    have hafter : Reservation.terminator ∉ after.reservations := by
      rw [h, List.mem_append, List.mem_singleton]
      rintro (hmem | hlast)
      · exact hnone hmem
      · exact hentry hlast.symm
    rw [reserved_eq hafter, reserved_eq hnone, h]

namespace Tree

variable {tree after : Tree} {entry : Reservation}

theorem reservations_of_reserve (h : reserve entry tree = .ok () after) :
    after.reservations = tree.reservations ++ [entry] := by
  have hadded := tree.reservations_reserve entry
  rw [h] at hadded
  exact hadded

theorem totalSize_of_reserve (h : reserve entry tree = .ok () after) :
    after.totalSize = tree.totalSize := by
  rw [reserve] at h
  split at h
  · cases h
  · cases h
    simp only [totalSize, usedSize, stringsOffset, structOffset, List.length_append,
      List.length_singleton, Nat.mul_succ]
    omega

end Tree

namespace Recorded

variable {tree : Tree} {image : Image} {entries : List Reservation}

/-- **What is seen of the entries that were added.** The bytes show the entries in front of the first
one that is all zero, also after they are read again. So all entries are seen, or one more, exactly if
no entry is all zero. -/
theorem reserved_eq_takeWhile (h : Recorded tree image entries) :
    image.bytes = tree.encode ∧ image.tree.reservations = tree.reserved ∧
      tree.reserved = entries.takeWhile (· ≠ Reservation.terminator) ∧
      (tree.reserved = entries ↔ Reservation.terminator ∉ entries) ∧
      (∃ reread, Tree.read image.bytes 0 = .ok reread ∧
        Image.read image.bytes 0 = .ok reread.image ∧ reread.reserved = tree.reserved) ∧
      ∀ entry after, Image.reserve entry image = .ok () after →
        (after.tree.reservations = image.tree.reservations ++ [entry] ↔
          entry ≠ Reservation.terminator ∧ Reservation.terminator ∉ entries) := by
  obtain ⟨hsized, himage, hentries⟩ := h.reservations
  have hseen : image.tree.reservations = tree.reserved := by
    rw [himage, hsized.tree_image]
  subst hentries
  refine ⟨by rw [himage]; rfl, hseen, rfl, Tree.reserved_eq_iff, h.exists_read, ?_⟩
  intro entry after hreserve
  rw [himage, hsized.reserve] at hreserve
  cases hresult : Tree.reserve entry tree with
  | error e failed =>
    rw [hresult] at hreserve
    cases hreserve
  | ok _ added =>
    rw [hresult] at hreserve
    cases hreserve
    have hadded : added.Sized := ⟨(Tree.totalSize_of_reserve hresult).trans_lt hsized.size⟩
    rw [hseen, hadded.tree_image]
    exact Tree.reserved_append_iff (Tree.reservations_of_reserve hresult)

end Recorded

/-- A tree that was made with space for three reservations. -/
def Tree.reserving (entries : List Reservation) : Tree :=
  { Tree.empty 128 with reservations := entries, free := 56 - entrySize * entries.length }

def firstReservation : Reservation := ⟨0x80000000, 0x1000⟩

def lastReservation : Reservation := ⟨0x90000000, 0x2000⟩

theorem recorded_reserving : Recorded (Tree.reserving [firstReservation])
    (Tree.reserving [firstReservation]).image [firstReservation] := by
  have h₀ : Recorded (Tree.empty 128) (Image.empty 128) [] := .empty (by decide)
  have h₁ := h₀.edit (.reserve firstReservation) (by cbv)
  have hreserving : afterwards ((Command.reserve firstReservation).run (Tree.empty 128)) =
      Tree.reserving [firstReservation] := by cbv
  rw [hreserving] at h₁
  obtain ⟨-, himage, hentries⟩ := h₁.reservations
  rw [himage, ← hentries] at h₁
  exact h₁

/-- A second reservation is seen, and the first one also after the blob is read again. -/
theorem Recorded.reserved_reserving : ∃ after reread,
    Image.reserve lastReservation (Tree.reserving [firstReservation]).image = .ok () after ∧
      after.tree.reservations = [firstReservation, lastReservation] ∧
      Tree.read (Tree.reserving [firstReservation]).image.bytes 0 = .ok reread ∧
      reread.reserved = [firstReservation] := by
  obtain ⟨hsized, -⟩ := recorded_reserving.reservations
  obtain ⟨-, hseen, hfront, -, ⟨reread, hread, -, hreread⟩, hreserve⟩ :=
    recorded_reserving.reserved_eq_takeWhile
  have hok : Image.reserve lastReservation (Tree.reserving [firstReservation]).image =
      .ok () (Tree.reserving [firstReservation, lastReservation]).image := by
    rw [hsized.reserve]
    rfl
  refine ⟨_, reread, hok, ?_, hread, ?_⟩
  · rw [(hreserve _ _ hok).2 ⟨by decide, by decide⟩, hseen, hfront]
    decide
  · rw [hreread, hfront]
    decide

/-- An all-zero reservation succeeds but is not seen, and neither is one that is added behind it. -/
theorem recorded_reserving_hidden : ∃ after last,
    Recorded (Tree.reserving [firstReservation]) (Tree.reserving [firstReservation]).image
        [firstReservation] ∧
      Image.reserve Reservation.terminator (Tree.reserving [firstReservation]).image =
        .ok () after ∧
      after.tree.reservations = [firstReservation] ∧
      Image.reserve lastReservation after = .ok () last ∧
      last.tree.reservations = [firstReservation] := by
  have hsized {entries : List Reservation} (h : (Tree.reserving entries).totalSize < 2 ^ 32) :
      (Tree.reserving entries).Sized := ⟨h⟩
  refine ⟨(Tree.reserving [firstReservation, Reservation.terminator]).image,
    (Tree.reserving [firstReservation, Reservation.terminator, lastReservation]).image,
    recorded_reserving, ?_, ?_, ?_, ?_⟩
  · rw [(hsized (by decide)).reserve]
    rfl
  · rw [(hsized (by decide)).tree_image]
    decide
  · rw [(hsized (by decide)).reserve]
    rfl
  · rw [(hsized (by decide)).tree_image]
    decide

end BootTree
