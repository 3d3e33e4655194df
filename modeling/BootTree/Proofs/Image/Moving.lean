import BootTree.Image.Edit
import BootTree.Proofs.Image.Layout
import BootTree.Proofs.Tree.Editing

/-!
# BootTree.Proofs.Image.Moving

Moving bytes inside the buffer of an image. On the image of a tree, what `Image.splice` does is an
edit of the tree's blocks: the bytes behind the stretch keep their order, the stretch itself holds
anything (the `gap` of the statements), and the free space behind them is zero again, also if the
stretch shrinks.

* `Image.splice_eq`: the buffer after a move.
* `Tree.Sized.spliceStruct`: moving bytes of the structure block is replacing them in the tree.
* `Tree.Sized.writeStruct`: writing over bytes of the structure block.
-/

namespace BootTree

open Blob

namespace Image

variable {image : Image} {front old behind : Bytes} {free new place : Nat}

theorem free_of_bytes (hbytes : image.bytes = front ++ (old ++ (behind ++ Bytes.zeros free)))
    (hused : image.usedSize = front.length + (old.length + behind.length)) :
    image.free = free := by
  rw [Image.free, hused, hbytes]
  simp only [List.length_append, Bytes.length_zeros]
  omega

/-- A move within the free space. The bytes behind the stretch keep their order. -/
theorem splice_eq (hbytes : image.bytes = front ++ (old ++ (behind ++ Bytes.zeros free)))
    (hused : image.usedSize = front.length + (old.length + behind.length))
    (hplace : place = front.length) (hroom : new ≤ old.length + free) :
    ∃ gap : Bytes, gap.length = new ∧ splice place old.length new image = .ok () { image with
      bytes := front ++ (gap ++ (behind ++ Bytes.zeros (old.length + free - new))) } := by
  have hfree := free_of_bytes hbytes hused
  have hbehind : image.bytes.slice (place + old.length)
      (image.usedSize - (place + old.length)) = behind := by
    rw [hused, hplace, hbytes, ← List.append_assoc]
    rw [show front.length + (old.length + behind.length) - (front.length + old.length) =
      behind.length by omega]
    exact Bytes.slice_mid List.length_append.symm
  let rest := old ++ behind
  have hmoved : image.bytes.overwrite (place + new) behind = front ++ ((rest ++ Bytes.zeros free).take new
      ++ (behind ++ (rest.drop (new + behind.length) ++
        Bytes.zeros (free - (new - old.length))))) := by
    rw [hplace, hbytes, Bytes.overwrite_append_right, ← List.append_assoc old, Bytes.overwrite,
      Bytes.splice, List.drop_append, List.append_assoc]
    congr 4
    rw [Bytes.zeros, Bytes.zeros, List.drop_replicate, List.length_append]
    congr 1
    omega
  have hgap : ((rest ++ Bytes.zeros free).take new).length = new := by
    simp only [List.length_take, List.length_append, Bytes.length_zeros, rest]
    omega
  refine ⟨_, hgap, ?_⟩
  rw [splice, if_neg (by omega)]
  dsimp only
  rw [hbehind, hmoved, hused]
  by_cases hshrinks : new < old.length
  · -- the bytes between the moved ones and the old end are cleared
    have hfreed : (rest.drop (new + behind.length)).length = old.length - new := by
      simp only [List.length_drop, List.length_append, rest]
      omega
    rw [← List.append_assoc _ behind, ← List.append_assoc front, Bytes.overwrite_mid ?_ ?_,
      ← Bytes.zeros_add, List.append_assoc, List.append_assoc]
    · rw [show old.length - new + (free - (new - old.length)) = old.length + free - new by omega]
    · simp only [List.length_append, hgap]
      omega
    · rw [Bytes.length_zeros, hfreed]
  · have hnone : rest.drop (new + behind.length) = [] := by
      apply List.drop_eq_nil_of_le
      simp only [List.length_append, rest]
      omega
    rw [show old.length - new = 0 by omega, hnone, List.nil_append]
    rw [show free - (new - old.length) = old.length + free - new by omega]
    exact congrArg (fun bytes => EStateM.Result.ok () { image with bytes })
      (Bytes.overwrite_nil _ _)

theorem splice_error {place old new : Nat} (h : old + image.free < new) :
    splice place old new image = .error (.noSpace (new - old)) image := by
  rw [splice, if_pos (by omega)]

/-- An image whose header and blocks are those of a tree, once the header is written. -/
theorem commit_eq {tree : Tree} {front : Bytes} (hfront : front.length = headerSize)
    (hheader : image.header = tree.header)
    (hbytes : image.bytes = front ++ (Reservation.encodeBlock tree.reservations ++
      (tree.structBlock ++ (tree.strings ++ Bytes.zeros tree.free))))
    (hmax : image.maxSize = tree.maxSize) : commit image = tree.image := by
  rw [commit, hheader, hbytes, hmax, Tree.image, Tree.encode_eq,
    Bytes.overwrite_front (by rw [hfront, Header.length_encode])]

end Image

/-! ## The structure block -/

namespace Tree

variable {tree : Tree} {offset old : Nat} {new : Bytes}

theorem length_spliced (hin : offset + old ≤ tree.structBlock.length) :
    (tree.spliced offset old new).structBlock.length =
      tree.structBlock.length + new.length - old := by
  have := @Bytes.length_splice tree.structBlock new offset old hin
  change (Bytes.splice _ _ _ _).length = _
  omega

theorem usedSize_spliced (hin : offset + old ≤ tree.structBlock.length) :
    (tree.spliced offset old new).usedSize + old = tree.usedSize + new.length := by
  have hlength := @length_spliced tree offset old new hin
  simp only [usedSize, stringsOffset, hlength]
  change tree.structOffset + _ + tree.strings.length + _ = _
  omega

theorem totalSize_spliced (hin : offset + old ≤ tree.structBlock.length)
    (hroom : new.length ≤ old + tree.free) :
    (tree.spliced offset old new).totalSize = tree.totalSize := by
  have hused := @usedSize_spliced tree offset old new hin
  change (tree.spliced offset old new).usedSize + (old + tree.free - new.length) =
    tree.usedSize + tree.free
  omega

theorem header_spliced (hin : offset + old ≤ tree.structBlock.length)
    (hroom : new.length ≤ old + tree.free) :
    (tree.spliced offset old new).header = { tree.header with
      structSize := tree.header.structSize + UInt32.ofNat new.length - UInt32.ofNat old
      stringsOffset := tree.header.stringsOffset + UInt32.ofNat new.length - UInt32.ofNat old } := by
  have hlength := @length_spliced tree offset old new hin
  have hstruct : UInt32.ofNat (tree.spliced offset old new).structBlock.length =
      UInt32.ofNat tree.structBlock.length + UInt32.ofNat new.length - UInt32.ofNat old := by
    rw [hlength, UInt32.ofNat_sub (by omega), UInt32.ofNat_add]
  have hstrings : UInt32.ofNat (tree.spliced offset old new).stringsOffset =
      UInt32.ofNat tree.stringsOffset + UInt32.ofNat new.length - UInt32.ofNat old := by
    rw [← UInt32.ofNat_add, ← UInt32.ofNat_sub (by rw [stringsOffset]; omega)]
    congr 1
    rw [stringsOffset, hlength, stringsOffset]
    change tree.structOffset + _ = _
    omega
  rw [header, totalSize_spliced hin hroom, hstruct, hstrings]
  rfl

namespace Sized

theorem spliced (h : tree.Sized) (hin : offset + old ≤ tree.structBlock.length)
    (hroom : new.length ≤ old + tree.free) : (tree.spliced offset old new).Sized :=
  ⟨by rw [totalSize_spliced hin hroom]; exact h.size⟩

theorem spliceStruct (h : tree.Sized) (hin : offset + old ≤ tree.structBlock.length)
    {size : Nat} (hroom : size ≤ old + tree.free) :
    ∃ gap : Bytes, gap.length = size ∧
      Image.spliceStruct offset old size tree.image =
        .ok () (tree.spliced offset old gap).image := by
  obtain ⟨front, stretch, behind, hcut, hfront, hstretch⟩ := Bytes.exists_cut hin
  subst hfront hstretch
  have hbytes : tree.image.bytes =
      (tree.header.encode ++ Reservation.encodeBlock tree.reservations ++ front) ++
        (stretch ++ ((behind ++ tree.strings) ++ Bytes.zeros tree.free)) := by
    change tree.encode = _
    rw [encode_eq, hcut]
    simp only [List.append_assoc]
  have hoffset := tree.structOffset_eq_length
  have hused : tree.image.usedSize =
      (tree.header.encode ++ Reservation.encodeBlock tree.reservations ++ front).length +
        (stretch.length + (behind ++ tree.strings).length) := by
    rw [h.usedSize, Tree.usedSize, Tree.stringsOffset, hcut, hoffset]
    simp only [List.length_append]
    omega
  have hplace : tree.structOffset + front.length =
      (tree.header.encode ++ Reservation.encodeBlock tree.reservations ++ front).length := by
    rw [hoffset, ← List.length_append]
  obtain ⟨gap, hgap, hsplice⟩ := Image.splice_eq hbytes hused hplace hroom
  refine ⟨gap, hgap, ?_⟩
  have hspliced : (tree.spliced front.length stretch.length gap).structBlock =
      front ++ (gap ++ behind) := by
    change Bytes.splice tree.structBlock _ _ _ = _
    rw [hcut, Bytes.splice_mid rfl]
  subst hgap
  unfold Image.spliceStruct
  rw [Edit.get_bind]
  change (Image.splice (tree.header.structOffset.toNat + front.length) _ _ >>= _) _ = _
  rw [h.structOffset, Edit.bind_of_ok hsplice]
  refine congrArg (EStateM.Result.ok ()) (Image.commit_eq (Header.length_encode tree.header)
    (header_spliced hin hroom).symm ?_ rfl)
  rw [hspliced]
  change _ = _ ++ (_ ++ (_ ++ (tree.strings ++
    Bytes.zeros (stretch.length + tree.free - gap.length))))
  simp only [List.append_assoc]
  rfl

theorem spliceStruct_error (h : tree.Sized) {size : Nat} (hroom : old + tree.free < size) :
    Image.spliceStruct offset old size tree.image = .error (.noSpace (size - old)) tree.image := by
  unfold Image.spliceStruct
  rw [Edit.get_bind, Edit.bind_of_error (Image.splice_error (by rw [h.free]; exact hroom))]

end Sized

/-! ## Writing over bytes -/

def written (tree : Tree) (offset : Nat) (new : Bytes) : Tree :=
  { tree with structBlock := tree.structBlock.overwrite offset new }

theorem header_written (hin : offset + new.length ≤ tree.structBlock.length) :
    (tree.written offset new).header = tree.header := by
  have hlength := Bytes.length_overwrite hin
  simp only [header, written, totalSize, usedSize, stringsOffset, structOffset, hlength]

namespace Sized

theorem written (h : tree.Sized) (hin : offset + new.length ≤ tree.structBlock.length) :
    (tree.written offset new).Sized := by
  refine ⟨?_⟩
  have hlength := Bytes.length_overwrite hin
  have hsize := h.size
  simp only [Tree.written, Tree.totalSize, Tree.usedSize, Tree.stringsOffset, Tree.structOffset,
    hlength] at hsize ⊢
  exact hsize

theorem writeStruct (h : tree.Sized) (hin : offset + new.length ≤ tree.structBlock.length) :
    tree.image.writeStruct offset new = (tree.written offset new).image := by
  have hplace : tree.image.header.structOffset.toNat + offset =
      (tree.header.encode ++ Reservation.encodeBlock tree.reservations).length + offset := by
    rw [← tree.structOffset_eq_length]
    exact congrArg (· + offset) h.structOffset
  have hbytes : tree.image.bytes.overwrite (tree.image.header.structOffset.toNat + offset) new =
      (tree.written offset new).encode := by
    change tree.encode.overwrite _ _ = _
    rw [hplace, encode_eq, encode_eq, header_written hin, ← List.append_assoc,
      Bytes.overwrite_append_right, Bytes.overwrite_append_left hin, List.append_assoc]
    rfl
  rw [Image.writeStruct, hbytes]
  exact congrArg (fun header => Image.mk header _ _) (header_written hin).symm

end Sized

/-! ## The strings block -/

def named (tree : Tree) (name : Bytes) : Tree :=
  { tree with
    strings := Strings.append tree.strings name
    free := tree.free - (name.length + 1) }

variable {name : Bytes}

theorem totalSize_named (hfree : name.length + 1 ≤ tree.free) :
    (tree.named name).totalSize = tree.totalSize := by
  simp only [named, totalSize, usedSize, stringsOffset, structOffset, Strings.append,
    List.length_append, List.length_singleton]
  omega

theorem header_named (hfree : name.length + 1 ≤ tree.free) :
    (tree.named name).header = { tree.header with
      stringsSize := tree.header.stringsSize + UInt32.ofNat (name.length + 1) } := by
  have hstrings : (tree.named name).strings.length = tree.strings.length + (name.length + 1) := by
    simp only [named, Strings.append, List.length_append, List.length_singleton]
    omega
  rw [header, totalSize_named hfree, hstrings, UInt32.ofNat_add tree.strings.length]
  rfl

namespace Sized

theorem named (h : tree.Sized) (hfree : name.length + 1 ≤ tree.free) : (tree.named name).Sized :=
  ⟨by rw [totalSize_named hfree]; exact h.size⟩

theorem withName (h : tree.Sized) (hcost : tree.nameCost name ≤ tree.free) :
    (tree.withName name).Sized := by
  unfold Tree.withName Tree.nameCost at *
  split
  · exact h
  · rename_i hnone
    rw [if_neg hnone] at hcost
    exact h.named hcost

theorem appendName (h : tree.Sized) (hfree : name.length + 1 ≤ tree.free) :
    Image.appendName name tree.image =
      .ok (UInt32.ofNat tree.strings.length) (tree.named name).image := by
  have hzeros : Bytes.zeros tree.free =
      Bytes.zeros name.length ++ (Bytes.zeros 1 ++ Bytes.zeros (tree.free - (name.length + 1))) := by
    rw [← Bytes.zeros_add, ← Bytes.zeros_add]
    congr 1
    omega
  have hbytes : tree.image.bytes = (tree.header.encode ++ (Reservation.encodeBlock tree.reservations
      ++ (tree.structBlock ++ tree.strings))) ++ Bytes.zeros tree.free := by
    change tree.encode = _
    rw [encode_eq]
    simp only [List.append_assoc]
  have hused : tree.image.usedSize = (tree.header.encode ++
      (Reservation.encodeBlock tree.reservations ++ (tree.structBlock ++ tree.strings))).length := by
    rw [h.usedSize, Tree.usedSize, stringsOffset_eq_length]
    simp only [List.length_append]
    omega
  rw [Image.appendName, if_neg (by rw [h.free]; omega)]
  refine congrArg (EStateM.Result.ok _) (Image.commit_eq (Header.length_encode tree.header)
    (header_named hfree).symm ?_ rfl)
  dsimp only
  rw [hbytes, hused, hzeros, Bytes.overwrite_mid rfl (Bytes.length_zeros _).symm,
    ← List.append_assoc _ name, Bytes.overwrite_mid List.length_append.symm (by rfl)]
  simp only [Tree.named, Strings.append, List.append_assoc]

theorem internName (h : tree.Sized) (hcost : tree.nameCost name ≤ tree.free) :
    Image.internName name tree.image =
      .ok (UInt32.ofNat (tree.nameOffset name)) (tree.withName name).image := by
  unfold Image.internName
  rw [Edit.get_bind, h.strings]
  unfold Tree.nameOffset Tree.withName Tree.nameCost at *
  cases hfind : Strings.find? tree.strings name with
  | some offset => rfl
  | none =>
    rw [hfind] at hcost
    exact h.appendName hcost

end Sized

end Tree

end BootTree
