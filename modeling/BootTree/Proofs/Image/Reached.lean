import BootTree.Proofs.Image.Editing

/-!
# BootTree.Proofs.Image.Reached

The layout of an image after any sequence of edits. A tree and an image are made in the same way and
edited by the same commands, which may fail and may name positions at which no node begins. The
image stays the image of the tree: its header describes its blocks, the blocks lie behind each other
without gaps, and what they leave free is zero. So the blob is read back to the tree it was
made from.

* `Reached`: trees and images that the same sequence of edits leads to.
* `Command.added`, `Tree.reservations_run`: what an edit adds to the reservations.
* `Reached.encodable`: the invariant, kept by every edit whether it succeeds or fails.
* `Image.Canonical`: the layout of an image.
* `reached_canonical`: every image that is reached has this layout and is read back.
-/

namespace BootTree

open Blob

def afterwards {σ α : Type} : EStateM.Result TreeError σ α → σ
  | .ok _ s => s
  | .error _ s => s

/-- Trees and images that the same edits lead to, as long as sizes are words. -/
inductive Reached : Tree → Image → Prop where
  | empty {size : Nat} : size < 2 ^ 32 → Reached (Tree.empty size) (Image.empty size)
  | read {blob : Bytes} {size : Nat} {tree : Tree} {image : Image} :
      Tree.read blob size = .ok tree → Image.read blob size = .ok image →
      tree.totalSize < 2 ^ 32 → Reached tree image
  | limit {tree : Tree} {image : Image} (limit : Nat) :
      Reached tree image → Reached (tree.withMaxSize limit) (image.withMaxSize limit)
  | edit {tree : Tree} {image : Image} (command : Command) :
      Reached tree image → command.KeepsTerminator →
      (afterwards (command.run tree)).totalSize < 2 ^ 32 →
      Reached (afterwards (command.run tree)) (afterwards (command.runInPlace image))

/-! ## What edits do to reservations -/

/-- The entry that an edit has added to the reservations. -/
def Command.added {σ : Type} : Command → EStateM.Result TreeError σ Unit → List Reservation
  | .reserve entry, .ok _ _ => [entry]
  | _, _ => []

theorem Command.mem_added {σ : Type} {command : Command} {result : EStateM.Result TreeError σ Unit}
    {entry : Reservation} (h : entry ∈ command.added result) : command = .reserve entry := by
  cases command with
  | reserve other =>
    cases result with
    | ok _ _ => rw [List.mem_singleton.1 h]
    | error _ _ => cases h
  | _ => cases h

namespace Tree

variable {tree : Tree}

theorem reservations_withName (name : Bytes) :
    (tree.withName name).reservations = tree.reservations := by
  unfold withName
  split <;> rfl

theorem reservations_grow (increment : Nat) :
    (afterwards (grow increment tree)).reservations = tree.reservations := by
  unfold grow
  dsimp only
  cases tree.maxSize with
  | none => rfl
  | some limit =>
    dsimp only
    split <;> rfl

theorem reservations_spliceStruct (offset old : Nat) (new : Bytes) :
    (afterwards (spliceStruct offset old new tree)).reservations = tree.reservations := by
  rw [spliceStruct_eq]
  split <;> rfl

theorem reservations_setValue (node : NodeRef) (name value : Bytes) :
    (afterwards (setValue node name value tree)).reservations = tree.reservations := by
  rw [setValue_eq]
  cases tree.property? node name with
  | error e => rfl
  | ok found =>
    cases found with
    | some old => exact reservations_spliceStruct _ _ _
    | none =>
      dsimp only
      rw [appendProperty_eq]
      split
      · rfl
      · cases tree.propertiesEnd node with
        | error e => exact reservations_withName name
        | ok offset => exact reservations_withName name

theorem reservations_addChild (parent : NodeRef) (name : Bytes) :
    (afterwards (addChild parent name tree)).reservations = tree.reservations := by
  rw [addChild_eq]
  split
  · split
    · rfl
    · rfl
    · split
      · rfl
      · split <;> rfl
  · rfl

theorem afterwards_discard {x : Edit NodeRef} :
    afterwards ((discard x : Edit Unit) tree) = afterwards (x tree) := by
  simp only [discard, Functor.discard, Functor.mapConst, EStateM.map, Function.comp]
  cases x tree <;> rfl

theorem reservations_reserve (entry : Reservation) :
    (afterwards (reserve entry tree)).reservations =
      tree.reservations ++ (Command.reserve entry).added (reserve entry tree) := by
  rw [reserve]
  split
  · exact (List.append_nil _).symm
  · rfl

/-- A reservation that succeeds appends an entry. No other edit changes the reservations. -/
theorem reservations_run (command : Command) (tree : Tree) :
    (afterwards (command.run tree)).reservations =
      tree.reservations ++ command.added (command.run tree) := by
  cases command with
  | reserve entry => exact reservations_reserve entry
  | grow increment => exact (reservations_grow increment).trans (List.append_nil _).symm
  | setValue node name value =>
    exact (reservations_setValue node name value).trans (List.append_nil _).symm
  | setCell node name cell =>
    exact (reservations_setValue node name (Bytes.word cell)).trans (List.append_nil _).symm
  | setDoubleCell node name cell =>
    exact (reservations_setValue node name (Bytes.doubleWord cell)).trans (List.append_nil _).symm
  | setCells node name cells =>
    exact (reservations_setValue node name (Cells.encode cells)).trans (List.append_nil _).symm
  | setText node name text =>
    exact (reservations_setValue node name (text ++ [0])).trans (List.append_nil _).symm
  | addChild parent name =>
    rw [Command.run, afterwards_discard]
    exact (reservations_addChild parent name).trans (List.append_nil _).symm

/-- No edit that keeps the terminator puts another one in front of it. -/
theorem entries_run {command : Command} (hcommand : command.KeepsTerminator)
    (h : Reservation.terminator ∉ tree.reservations) :
    Reservation.terminator ∉ (afterwards (command.run tree)).reservations := by
  rw [reservations_run]
  intro hmem
  rcases List.mem_append.1 hmem with hmem | hmem
  · exact h hmem
  · rw [Command.mem_added hmem] at hcommand
    exact hcommand rfl

theorem entries_of_read {blob : Bytes} {size : Nat} (h : read blob size = .ok tree) :
    Reservation.terminator ∉ tree.reservations := by
  unfold read at h
  obtain ⟨header, -, h⟩ := exists_of_bind_eq_ok h
  by_cases hsize : blob.length < header.totalSize.toNat
  · rw [if_pos hsize] at h
    cases h
  rw [if_neg hsize] at h
  by_cases hoffset : (blob.take header.totalSize.toNat).length < header.reservationsOffset.toNat
  · rw [if_pos hoffset] at h
    cases h
  rw [if_neg hoffset] at h
  obtain ⟨entries, hentries, h⟩ := exists_of_bind_eq_ok h
  obtain ⟨structBlock, -, h⟩ := exists_of_bind_eq_ok h
  obtain ⟨strings, -, h⟩ := exists_of_bind_eq_ok h
  cases h
  exact (Reservation.take_of_readBlock (mapError_eq_ok_iff.1 hentries)).1

end Tree

/-! ## The invariant -/

namespace Reached

variable {tree : Tree} {image : Image}

theorem encodable (h : Reached tree image) : tree.Encodable ∧ image = tree.image := by
  induction h with
  | @empty size hsize =>
    refine ⟨⟨?_, List.not_mem_nil⟩, Image.empty_eq size⟩
    rw [Tree.empty, Tree.totalSize_ofBlocks]
    change max 72 size < _
    omega
  | @read blob size tree image htree himage hsize =>
    refine ⟨⟨hsize, Tree.entries_of_read htree⟩, ?_⟩
    rw [Image.read_eq, htree] at himage
    exact (Except.ok.inj himage).symm
  | limit limit _ ih =>
    obtain ⟨hencodable, rfl⟩ := ih
    exact ⟨⟨hencodable.size, hencodable.entries⟩, rfl⟩
  | edit command _ hcommand hsize ih =>
    obtain ⟨hencodable, rfl⟩ := ih
    refine ⟨⟨hsize, Tree.entries_run hcommand hencodable.entries⟩, ?_⟩
    rw [hencodable.runInPlace]
    cases command.run _ <;> rfl

end Reached

/-! ## The layout -/

/-- An image whose blocks lie behind each other, the reservations ending at their only terminator. -/
structure Image.Canonical (image : Image) (entries : List Reservation) : Prop where
  size : image.bytes.length = image.header.totalSize.toNat
  header : image.bytes.take headerSize = image.header.encode
  blocks : image.bytes = image.header.encode ++ Reservation.encodeBlock entries ++
    image.structBlock ++ image.strings ++ Bytes.zeros image.free
  terminated : Reservation.terminator ∉ entries
  reservationsOffset : image.header.reservationsOffset.toNat = headerSize
  structOffset : image.header.structOffset.toNat =
    image.header.reservationsOffset.toNat + (Reservation.encodeBlock entries).length
  stringsOffset : image.header.stringsOffset.toNat =
    image.header.structOffset.toNat + image.header.structSize.toNat
  free : image.header.stringsOffset.toNat + image.header.stringsSize.toNat + image.free =
    image.header.totalSize.toNat

theorem Tree.Encodable.canonical {tree : Tree} (h : tree.Encodable) :
    tree.image.Canonical tree.reservations where
  size := tree.length_encode.trans h.totalSize.symm
  header := by
    change tree.encode.take headerSize = _
    rw [Tree.encode_eq]
    exact List.take_left' (Header.length_encode _)
  blocks := by
    rw [h.sized.structBlock, h.sized.strings, h.sized.free]
    rfl
  terminated := h.entries
  reservationsOffset := rfl
  structOffset := by
    refine h.sized.structOffset.trans ?_
    rw [Tree.structOffset, Reservation.length_encodeBlock]
    rfl
  stringsOffset := by
    refine h.sized.stringsOffset.trans ?_
    rw [Tree.stringsOffset, ← h.sized.structOffset, ← h.sized.structSize]
    rfl
  free := by
    have hstrings : tree.image.header.stringsOffset.toNat = tree.stringsOffset := h.sized.stringsOffset
    have hsize : tree.image.header.stringsSize.toNat = tree.strings.length := h.sized.stringsSize
    rw [hstrings, hsize, h.sized.free]
    exact h.totalSize.symm

/-- **The layout of every image that is reached.** It is the image of the tree that the same edits
lead to, laid out in one way, and its bytes are read back to what they were made from. -/
theorem reached_canonical {tree : Tree} {image : Image} (h : Reached tree image) :
    image.Canonical tree.reservations ∧ image = tree.image ∧
      Tree.read tree.encode 0 = .ok { tree with maxSize := none } ∧
      Image.read image.bytes 0 = .ok { image with maxSize := none } := by
  obtain ⟨hencodable, rfl⟩ := h.encodable
  refine ⟨hencodable.canonical, rfl, Tree.read_encode hencodable, ?_⟩
  rw [Image.read_eq]
  exact congrArg (Except.map Tree.image) (Tree.read_encode hencodable)

/-- What is left after a value was written, an edit at a position where no node begins failed, the
value was made shorter, and a reservation was appended to a tree without space for it, and once more
after growing it. -/
def edited : Tree where
  bootCpu := 0
  reservations := [⟨0x80000000, 0x1000⟩]
  structBlock := ([.beginNode [], .property 0 [0, 0, 0, 7], .endNode, .finish] :
    List Token).flatMap Token.encode
  strings := [97, 0]
  free := 6
  maxSize := none

theorem reached_canonical_edited :
    ∃ image, Reached edited image ∧ image.Canonical edited.reservations ∧ image = edited.image ∧
      Tree.read edited.encode 0 = .ok { edited with maxSize := none } ∧
      Image.read image.bytes 0 = .ok { image with maxSize := none } := by
  let entry : Reservation := ⟨0x80000000, 0x1000⟩
  have hentry : entry ≠ Reservation.terminator := by decide
  have h₀ : Reached (Tree.empty 100) (Image.empty 100) := .empty (by decide)
  have h₁ := h₀.edit (.setValue ⟨0⟩ [97] [1, 2, 3, 4, 5]) trivial (by cbv)
  have h₂ := h₁.edit (.setValue ⟨4⟩ [98] [1]) trivial (by cbv)
  have h₃ := h₂.edit (.setCell ⟨0⟩ [97] 7) trivial (by cbv)
  have h₄ := h₃.edit (.reserve entry) hentry (by cbv)
  have h₅ := h₄.edit (.grow 12) trivial (by cbv)
  have h₆ := h₅.edit (.reserve entry) hentry (by cbv)
  have hedited : afterwards ((Command.reserve entry).run (afterwards ((Command.grow 12).run
      (afterwards ((Command.reserve entry).run (afterwards ((Command.setCell ⟨0⟩ [97] 7).run
        (afterwards ((Command.setValue ⟨4⟩ [98] [1]).run (afterwards
          ((Command.setValue ⟨0⟩ [97] [1, 2, 3, 4, 5]).run (Tree.empty 100)))))))))))) =
            edited := by cbv
  rw [hedited] at h₆
  exact ⟨_, h₆, reached_canonical h₆⟩

end BootTree
