import BootTree.Proofs.Image.Editing

/-!
# BootTree.Proofs.Image.Naming

Names of properties in the buffer of an image. A name is found at the first place where it can be
read, which may be inside a longer name, and putting another name behind the block moves and hides
none of those that are there. Tokens refer to their names by offset, so no property is renamed.

* `Tree.Sized.image_appendName`: a name put into the buffer and one put into the strings of the tree.
* `Image.middle`: what stands between the header and the strings block.
* `Blob.Strings.naming`: where names are found, and what appending one leaves as it was.
-/

namespace BootTree

open Blob

/-- What stands between the header and the strings block. -/
def Image.middle (image : Image) : Bytes :=
  image.bytes.slice headerSize (image.header.stringsOffset.toNat - headerSize)

namespace Tree

variable {tree : Tree} {name : Bytes}

theorem appendName_eq (tree : Tree) (name : Bytes) :
    appendName name tree =
      if tree.free < name.length + 1 then .error (.noSpace (name.length + 1)) tree
      else .ok (UInt32.ofNat tree.strings.length) (tree.named name) := rfl

namespace Sized

theorem image_appendName (h : tree.Sized) (name : Bytes) :
    Image.appendName name tree.image = imaged (Tree.appendName name tree) := by
  rw [Tree.appendName_eq]
  by_cases hfree : tree.free < name.length + 1
  · rw [if_pos hfree, Image.appendName, h.free, if_pos hfree]
    rfl
  · rw [if_neg hfree, h.appendName (by omega)]
    rfl

theorem middle_image (h : tree.Sized) : tree.image.middle =
    Reservation.encodeBlock tree.reservations ++ tree.structBlock := by
  have hlength : tree.image.header.stringsOffset.toNat - headerSize =
      (Reservation.encodeBlock tree.reservations ++ tree.structBlock).length := by
    have hoffset : tree.image.header.stringsOffset.toNat = tree.stringsOffset := h.stringsOffset
    rw [hoffset, stringsOffset_eq_length, List.length_append, Header.length_encode,
      Nat.add_sub_cancel_left]
  rw [Image.middle, hlength]
  change tree.encode.slice _ _ = _
  rw [encode_eq, ← List.append_assoc (Reservation.encodeBlock _)]
  exact Bytes.slice_mid (Header.length_encode _).symm

theorem read_named (h : tree.Sized) (hfree : name.length + 1 ≤ tree.free) {offset : Nat} {old : Bytes}
    (hread : Strings.read tree.image.strings offset = .ok old) :
    Strings.read (tree.named name).image.strings offset = .ok old := by
  rw [h.strings] at hread
  rw [(h.named hfree).strings, Tree.named, Strings.append, List.append_assoc]
  exact Strings.read_append_block hread _

theorem read_named_self (h : tree.Sized) (hfree : name.length + 1 ≤ tree.free) (hname : 0 ∉ name) :
    Strings.read (tree.named name).image.strings (UInt32.ofNat tree.strings.length).toNat =
      .ok name := by
  rw [(h.named hfree).strings, show (UInt32.ofNat tree.strings.length).toNat = _ from h.stringsSize]
  exact Strings.read_append_self _ hname

/-- A name is appended exactly if it fits, with its terminator, into the free space. -/
theorem appendName_eq_ok_iff (h : tree.Sized) {nameOffset : UInt32} {after : Image} :
    Image.appendName name tree.image = .ok nameOffset after ↔
      name.length + 1 ≤ tree.free ∧ nameOffset = UInt32.ofNat tree.strings.length ∧
        after = (tree.named name).image := by
  rw [h.image_appendName, Tree.appendName_eq]
  by_cases hfree : tree.free < name.length + 1
  · rw [if_pos hfree]
    constructor
    · intro hok
      cases hok
    · rintro ⟨hroom, -⟩
      omega
  · rw [if_neg hfree]
    constructor
    · intro hok
      cases hok
      exact ⟨by omega, rfl, rfl⟩
    · rintro ⟨-, rfl, rfl⟩
      rfl

end Sized

end Tree

/-- **Finding and appending names.** In every strings block a name is found at the smallest offset
at which it can be read, if there is one; the end of a longer name counts. Appending a name to the
strings block of an image needs room for it and its terminator. Afterwards every name that could be
read at an offset can be read there, the new one at the offset that is answered, and of the header
only the size of the strings block is another; the reservations and the structure block, which stand
between the two, are the same bytes. -/
theorem Blob.Strings.naming {name : Bytes} (hname : 0 ∉ name) :
    (∀ block offset, find? block name = some offset ↔
      read block offset = .ok name ∧ ∀ earlier < offset, read block earlier ≠ .ok name) ∧
    (∀ block, find? block name = none ↔ ∀ offset, read block offset ≠ .ok name) ∧
    (∀ block offset front, read block offset = .ok (front ++ name) →
      ∃ found, find? block name = some found ∧ found ≤ offset + front.length) ∧
    ∀ tree : Tree, tree.Sized →
      ((∃ nameOffset after, Image.appendName name tree.image = .ok nameOffset after) ↔
        name.length + 1 ≤ tree.image.free) ∧
      ∀ nameOffset after, Image.appendName name tree.image = .ok nameOffset after →
        (∀ offset old, read tree.image.strings offset = .ok old →
          read after.strings offset = .ok old) ∧
        read after.strings nameOffset.toNat = .ok name ∧
        after.structBlock = tree.image.structBlock ∧
        after.tree.reservations = tree.image.tree.reservations ∧
        after.header = { tree.image.header with stringsSize := after.header.stringsSize } ∧
        after.middle = tree.image.middle ∧
        ∃ named, Tree.appendName name tree = .ok nameOffset named ∧ after = named.image := by
  refine ⟨fun _ _ => find?_eq_some_iff hname, fun _ => find?_eq_none_iff hname, ?_, ?_⟩
  · intro block offset front hread
    exact find?_le (read_eq_ok_iff.1 (read_tail hread)).2
  · intro tree h
    refine ⟨?_, ?_⟩
    · simp only [h.appendName_eq_ok_iff, h.free]
      constructor
      · rintro ⟨_, _, hfree, -⟩
        exact hfree
      · intro hfree
        exact ⟨_, _, hfree, rfl, rfl⟩
    · intro nameOffset after hok
      obtain ⟨hfree, rfl, rfl⟩ := h.appendName_eq_ok_iff.1 hok
      have hnamed := h.named hfree
      refine ⟨fun _ _ => h.read_named hfree, h.read_named_self hfree hname,
        hnamed.structBlock.trans h.structBlock.symm, ?_, ?_, ?_, ?_⟩
      · rw [hnamed.tree_image, h.tree_image]
        rfl
      · simp only [Tree.image, Tree.header_named hfree]
      · exact hnamed.middle_image.trans h.middle_image.symm
      · refine ⟨tree.named name, ?_, rfl⟩
        rw [Tree.appendName_eq, if_neg (by omega)]

/-- A tree with two bytes of free space whose strings block holds one name and the start of
another. -/
def Tree.cutNames : Tree where
  bootCpu := 0
  reservations := [⟨0x80000000, 0x1000⟩]
  structBlock := Tree.emptyStructure
  strings := [97, 98, 0, 99]
  free := 2
  maxSize := none

theorem Blob.Strings.naming_cutNames :
    0 ∉ ([98] : Bytes) ∧ Tree.cutNames.Sized ∧
    find? Tree.cutNames.strings [98] = some 1 ∧
    ∃ after, Image.appendName [98] Tree.cutNames.image = .ok 4 after ∧
      read after.strings 0 = .ok [97, 98] ∧ read after.strings 1 = .ok [98] ∧
      read after.strings 4 = .ok [98] ∧ after.structBlock = Tree.emptyStructure ∧
      after.tree.reservations = [⟨0x80000000, 0x1000⟩] := by
  have hname : 0 ∉ ([98] : Bytes) := by decide
  have hsized : Tree.cutNames.Sized := ⟨by decide⟩
  obtain ⟨hfind, -, -, happend⟩ := naming hname
  have hfound := (hfind Tree.cutNames.strings 1).2 ⟨rfl, by
    intro earlier hlt
    obtain rfl : earlier = 0 := by omega
    decide⟩
  have hok : Image.appendName [98] Tree.cutNames.image = .ok 4 (Tree.cutNames.named [98]).image :=
    hsized.appendName (by decide)
  obtain ⟨hold, hnew, hstruct, hreserved, -⟩ := (happend _ hsized).2 _ _ hok
  refine ⟨hname, hsized, hfound, _, hok, hold 0 _ ?_, hold 1 _ ?_, hnew,
    hstruct.trans hsized.structBlock, hreserved.trans ?_⟩
  · rw [hsized.strings]
    rfl
  · rw [hsized.strings]
    rfl
  · rw [hsized.tree_image]
    rfl

end BootTree
