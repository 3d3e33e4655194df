import BootTree.Proofs.Bounds.Edits
import BootTree.Proofs.Image.Reached

/-!
# BootTree.Proofs.Bounds.Framed

No edit of an image makes an access that is out of bounds. The invariant is the layout: blocks that
lie behind each other inside the buffer. It is enough for each step of an edit, and each step keeps
it, whether the edit succeeds or fails.

* `Image.Framed`: the invariant.
* `Safe`: a checked edit that does not fault, is the edit, and keeps the frame; `Safe.bind` puts two
  of them together.
* `Image.Framed.safe_spliceStruct`, `Image.Framed.safe_write` and others: the steps.
-/

namespace BootTree

open Blob

/-! ## The frame -/

namespace Image

/-- The blocks of an image lie behind each other in its buffer, with the header and at least one
reservation in front of them. -/
structure Framed (image : Image) : Prop where
  front : headerSize + entrySize ≤ image.header.structOffset.toNat
  strings : image.header.structOffset.toNat + image.header.structSize.toNat =
    image.header.stringsOffset.toNat
  used : image.header.stringsOffset.toNat + image.header.stringsSize.toNat ≤ image.bytes.length
  size : image.bytes.length < 2 ^ 32

namespace Framed

variable {image : Image} (h : image.Framed)

include h

theorem hasBlocks : image.HasBlocks := ⟨by have := h.used; have := h.strings; omega, h.used⟩

theorem usedSize : image.usedSize =
    image.header.stringsOffset.toNat + image.header.stringsSize.toNat := by
  have := h.used
  have := h.size
  rw [Image.usedSize, UInt32.toNat_add, Nat.mod_eq_of_lt (by omega)]

theorem hasFree : image.HasFree := by
  have hused := h.used
  have hsize := h.size
  refine ⟨by omega, ?_⟩
  rw [h.usedSize]
  exact hused

theorem hasHeader : image.HasHeader := by
  have := h.front
  have := h.strings
  have := h.used
  change headerSize ≤ _
  omega

theorem length_structBlock : image.tree.structBlock.length = image.header.structSize.toNat := by
  have := h.hasBlocks.1
  change (Bytes.slice _ _ _).length = _
  rw [Bytes.slice, List.length_take, List.length_drop]
  omega

theorem length_structBlock_lt : image.tree.structBlock.length < 2 ^ 32 := by
  rw [h.length_structBlock]
  exact UInt32.toNat_lt _

/-- Only the layout matters. -/
theorem of_header_eq {after : Image} (hheader : after.header = image.header)
    (hlength : after.bytes.length = image.bytes.length) : after.Framed := by
  obtain ⟨hfront, hstrings, hused, hsize⟩ := h
  refine ⟨?_, ?_, ?_, ?_⟩
  · rw [hheader]
    exact hfront
  · rw [hheader]
    exact hstrings
  · rw [hheader, hlength]
    exact hused
  · rw [hlength]
    exact hsize

end Framed

theorem length_commit {image : Image} (h : image.HasHeader) :
    (commit image).bytes.length = image.bytes.length :=
  Bytes.length_overwrite (by rw [Header.length_encode, Nat.zero_add]; exact h)

theorem Framed.commit {image : Image} (h : image.Framed) : (commit image).Framed :=
  h.of_header_eq rfl (length_commit h.hasHeader)

end Image

/-! ## Checked edits that do not fault -/

/-- On this image, the checked edit does not fault and is the edit. The frame is kept, and `post`
holds of what a successful edit answers and leaves behind. -/
structure Safe {α : Type} (checked : CheckedEdit α) (edit : InPlace α) (image : Image)
    (post : α → Image → Prop) : Prop where
  run : checked image = some (edit image)
  framed : (afterwards (edit image)).Framed
  post : ∀ a after, edit image = .ok a after → post a after

namespace Safe

variable {α β : Type} {checked : CheckedEdit α} {edit : InPlace α} {image : Image}
  {post : α → Image → Prop}

theorem pure {a : α} (h : image.Framed) (hpost : post a image) :
    Safe (Pure.pure a) (Pure.pure a) image post where
  run := rfl
  framed := h
  post := by
    rintro _ _ ⟨⟩
    exact hpost

theorem fail {e : TreeError} (h : image.Framed) :
    Safe (CheckedEdit.fail e) (throw e : InPlace α) image post where
  run := rfl
  framed := h
  post := by rintro _ _ ⟨⟩

theorem mono {post' : α → Image → Prop} (h : Safe checked edit image post)
    (hpost : ∀ a after, post a after → post' a after) : Safe checked edit image post' :=
  ⟨h.run, h.framed, fun a after hok => hpost a after (h.post a after hok)⟩

theorem bind {f : α → CheckedEdit β} {f' : α → InPlace β} {post' : β → Image → Prop}
    (h : Safe checked edit image post)
    (hf : ∀ a after, after.Framed → post a after → Safe (f a) (f' a) after post') :
    Safe (checked >>= f) (edit >>= f') image post' := by
  obtain ⟨hrun, hframed, hpost⟩ := h
  cases hedit : edit image with
  | error e after =>
    rw [hedit] at hrun hframed
    have hbind := Edit.bind_of_error hedit f'
    refine ⟨?_, ?_, ?_⟩
    · rw [CheckedEdit.bind_of_error hrun, hbind]
    · rw [hbind]
      exact hframed
    · rw [hbind]
      rintro _ _ ⟨⟩
  | ok a after =>
    rw [hedit] at hrun hframed
    have hbind := Edit.bind_of_ok hedit f'
    obtain ⟨hrun', hframed', hpost'⟩ := hf a after hframed (hpost a after hedit)
    refine ⟨?_, ?_, ?_⟩
    · rw [CheckedEdit.bind_of_ok hrun, hbind]
      exact hrun'
    · rw [hbind]
      exact hframed'
    · rw [hbind]
      exact hpost'

theorem ite {c : Prop} [Decidable c] {checked' : CheckedEdit α} {edit' : InPlace α}
    (hthen : c → Safe checked edit image post) (helse : ¬ c → Safe checked' edit' image post) :
    Safe (if c then checked else checked') (if c then edit else edit') image post := by
  split
  · exact hthen ‹_›
  · exact helse ‹_›

theorem within {bounds : Image → Prop} [DecidablePred bounds] (hbounds : bounds image)
    (hframed : (afterwards (edit image)).Framed)
    (hpost : ∀ a after, edit image = .ok a after → post a after) :
    Safe (CheckedEdit.within bounds edit) edit image post where
  run := if_pos hbounds
  framed := hframed
  post := hpost

end Safe

/-- A header word whose new value is a word, however large the sum was on the way. -/
theorem toNat_resized {word : UInt32} {old new : Nat} (hold : old ≤ word.toNat + new)
    (hnew : word.toNat + new - old < 2 ^ 32) :
    (word + UInt32.ofNat new - UInt32.ofNat old).toNat = word.toNat + new - old := by
  have hword : word = UInt32.ofNat word.toNat := UInt32.ofNat_toNat.symm
  rw [hword, ← UInt32.ofNat_add, ← UInt32.ofNat_sub (by omega), UInt32.toNat_ofNat',
    UInt32.toNat_ofNat', Nat.mod_eq_of_lt word.toNat_lt, Nat.mod_eq_of_lt hnew]

/-! ## Step by step -/

namespace Image

namespace Framed

variable {image : Image} (h : image.Framed)

include h

theorem safe_get {bounds : Image → Prop} [DecidablePred bounds] (hbounds : bounds image) :
    Safe (CheckedEdit.within bounds get) get image fun a after => image = a ∧ image = after :=
  .within hbounds h (by rintro _ _ ⟨⟩; exact ⟨rfl, rfl⟩)

theorem safe_ask {α : Type} {query : Tree → Checked α} {query' : Tree → Except TreeError α}
    (hquery : query image.tree = .of (query' image.tree)) :
    Safe (CheckedEdit.ask query) (Image.ask query') image fun a after =>
      image = after ∧ query' image.tree = .ok a := by
  have hask : CheckedEdit.ask query image = some (Image.ask query' image) := by
    rw [CheckedEdit.ask, if_pos h.hasBlocks, hquery]
    rfl
  refine ⟨hask, ?_, ?_⟩
  · rw [Image.ask]
    cases query' image.tree <;> exact h
  · intro a after hok
    rw [Image.ask] at hok
    cases hanswer : query' image.tree with
    | error e =>
      rw [hanswer] at hok
      cases hok
    | ok b =>
      rw [hanswer] at hok
      cases hok
      exact ⟨rfl, rfl⟩

theorem safe_splice {place old new : Nat} (hplace : place + old ≤ image.usedSize) :
    Safe (CheckedEdit.splice place old new) (Image.splice place old new) image
      fun _ after => after.header = image.header ∧ after.bytes.length = image.bytes.length ∧
        new - old ≤ image.free := by
  have hfree : image.usedSize ≤ image.bytes.length := h.hasFree.2
  have hroom : image.free = image.bytes.length - image.usedSize := rfl
  have hbounds : image.HasFree ∧ (new - old ≤ image.free →
      place + old ≤ image.usedSize ∧
      place + new + (image.usedSize - (place + old)) ≤ image.bytes.length ∧
      old - new ≤ image.usedSize) := ⟨h.hasFree, fun _ => by omega⟩
  by_cases hspace : old < new ∧ image.free < new - old
  · have herror : Image.splice place old new image = .error (.noSpace (new - old)) image :=
      if_pos hspace
    refine .within hbounds ?_ ?_
    · rw [herror]
      exact h
    · rw [herror]
      rintro _ _ ⟨⟩
  · -- the bytes that are moved end inside the buffer, and so do those that are cleared
    have hbehind : (image.bytes.slice (place + old) (image.usedSize - (place + old))).length =
        image.usedSize - (place + old) := by
      rw [Bytes.slice, List.length_take, List.length_drop]
      omega
    have hmoved : (image.bytes.overwrite (place + new) (image.bytes.slice (place + old)
        (image.usedSize - (place + old)))).length = image.bytes.length :=
      Bytes.length_overwrite (by rw [hbehind]; omega)
    have hcleared : ((image.bytes.overwrite (place + new) (image.bytes.slice (place + old)
        (image.usedSize - (place + old)))).overwrite (image.usedSize - (old - new))
          (Bytes.zeros (old - new))).length = image.bytes.length :=
      (Bytes.length_overwrite (by rw [Bytes.length_zeros, hmoved]; omega)).trans hmoved
    have hok : Image.splice place old new image = .ok () { image with
        bytes := (image.bytes.overwrite (place + new) (image.bytes.slice (place + old)
          (image.usedSize - (place + old)))).overwrite (image.usedSize - (old - new))
            (Bytes.zeros (old - new)) } := if_neg hspace
    refine .within hbounds ?_ ?_
    · rw [hok]
      exact h.of_header_eq rfl hcleared
    · rw [hok]
      rintro _ _ ⟨⟩
      exact ⟨rfl, hcleared, by omega⟩

theorem safe_spliceStruct {offset old new : Nat}
    (hin : offset + old ≤ image.header.structSize.toNat) :
    Safe (CheckedEdit.spliceStruct offset old new) (Image.spliceStruct offset old new) image
      fun _ after => after.header.structSize.toNat + old = image.header.structSize.toNat + new := by
  refine (h.safe_get trivial).bind ?_
  rintro _ _ - ⟨rfl, rfl⟩
  have hstrings := h.strings
  have husedSize := h.usedSize
  refine (h.safe_splice (by omega)).bind ?_
  rintro ⟨⟩ after hframed ⟨hheader, hlength, hroom⟩
  have hused := h.used
  have hsize := h.size
  have hfree : image.free = image.bytes.length - image.usedSize := rfl
  have hstructSize := @toNat_resized image.header.structSize old new (by omega) (by omega)
  have hstringsOffset := @toNat_resized image.header.stringsOffset old new (by omega) (by omega)
  refine .within ?_ ?_ ?_
  · rw [hheader]
    exact ⟨hframed.hasHeader, by omega, by omega, by omega, by omega⟩
  · have hresized : Framed { after with
        header := { after.header with
          structSize := after.header.structSize + UInt32.ofNat new - UInt32.ofNat old
          stringsOffset := after.header.stringsOffset + UInt32.ofNat new - UInt32.ofNat old } } := by
      rw [hheader]
      refine ⟨h.front, ?_, ?_, hframed.size⟩
      · dsimp only
        rw [hstructSize, hstringsOffset]
        omega
      · dsimp only
        rw [hstringsOffset]
        omega
    exact hresized.commit
  · rintro _ _ ⟨⟩
    change (after.header.structSize + UInt32.ofNat new - UInt32.ofNat old).toNat + old = _
    rw [hheader, hstructSize]
    omega

theorem safe_write {offset size k : Nat} {new : Bytes}
    (hin : offset + size ≤ image.header.structSize.toNat) (hk : k + new.length ≤ size) :
    Safe (CheckedEdit.write offset size k new) (modify (·.writeStruct (offset + k) new)) image
      fun _ after => after.header = image.header := by
  have hblocks := h.hasBlocks
  have hlength : (image.writeStruct (offset + k) new).bytes.length = image.bytes.length :=
    Bytes.length_overwrite (by omega)
  refine .within ⟨hblocks, hin, hk⟩ (h.of_header_eq rfl hlength) ?_
  rintro _ _ ⟨⟩
  rfl

theorem safe_appendName {name : Bytes} :
    Safe (CheckedEdit.appendName name) (Image.appendName name) image fun _ _ => True := by
  have husedSize := h.usedSize
  have hstrings := h.strings
  have hused := h.used
  have hsize := h.size
  have hfree : image.free = image.bytes.length - image.usedSize := rfl
  refine .within ⟨h.hasFree, fun hroom => ⟨h.hasHeader, by omega, by omega⟩⟩ ?_
    (fun _ _ _ => trivial)
  rw [Image.appendName]
  split
  · exact h
  · rename_i hroom
    have hnamed : (image.bytes.overwrite image.usedSize name).length = image.bytes.length :=
      Bytes.length_overwrite (by omega)
    have hended : ((image.bytes.overwrite image.usedSize name).overwrite
        (image.usedSize + name.length) [0]).length = image.bytes.length :=
      (Bytes.length_overwrite (by rw [hnamed, List.length_singleton]; omega)).trans hnamed
    have hword : (image.header.stringsSize + UInt32.ofNat (name.length + 1)).toNat =
        image.header.stringsSize.toNat + (name.length + 1) := by
      rw [UInt32.toNat_add, UInt32.toNat_ofNat', Nat.mod_eq_of_lt (by omega),
        Nat.mod_eq_of_lt (by omega)]
    have hlonger : Framed { image with
        header := { image.header with
          stringsSize := image.header.stringsSize + UInt32.ofNat (name.length + 1) }
        bytes := (image.bytes.overwrite image.usedSize name).overwrite
          (image.usedSize + name.length) [0] } := by
      refine ⟨h.front, h.strings, ?_, ?_⟩
      · dsimp only
        rw [hended, hword]
        omega
      · dsimp only
        rw [hended]
        exact hsize
    exact hlonger.commit

theorem safe_reserve (entry : Reservation) :
    Safe (CheckedEdit.reserve entry) (Image.reserve entry) image fun _ _ => True := by
  have husedSize := h.usedSize
  have hfront := h.front
  have hstrings := h.strings
  have hused := h.used
  have hsize := h.size
  have hfree : image.free = image.bytes.length - image.usedSize := rfl
  have hentry : entry.encode.length = entrySize := Reservation.length_encode entry
  refine (h.safe_get (by omega)).bind ?_
  rintro _ _ - ⟨rfl, rfl⟩
  refine (h.safe_splice (by omega)).bind ?_
  rintro ⟨⟩ after hframed ⟨hheader, hlength, hroom⟩
  have hmoved {word : UInt32} (hword : word.toNat + entrySize < 2 ^ 32) :
      (word + UInt32.ofNat entrySize).toNat = word.toNat + entrySize := by
    rw [UInt32.toNat_add, UInt32.toNat_ofNat', Nat.mod_eq_of_lt (by omega),
      Nat.mod_eq_of_lt (by omega)]
  have hstructOffset := @hmoved image.header.structOffset (by omega)
  have hstringsOffset := @hmoved image.header.stringsOffset (by omega)
  have hwritten : (after.bytes.overwrite (image.header.structOffset.toNat - entrySize)
      entry.encode).length = image.bytes.length :=
    (Bytes.length_overwrite (by omega)).trans hlength
  refine .within ?_ ?_ (fun _ _ _ => trivial)
  · rw [hheader]
    exact ⟨hframed.hasHeader, by omega, by omega, by omega⟩
  · have hreserved : Framed { after with
        header := { after.header with
          structOffset := after.header.structOffset + UInt32.ofNat entrySize
          stringsOffset := after.header.stringsOffset + UInt32.ofNat entrySize }
        bytes := after.bytes.overwrite (image.header.structOffset.toNat - entrySize)
          entry.encode } := by
      rw [hheader]
      refine ⟨?_, ?_, ?_, ?_⟩
      · dsimp only
        omega
      · dsimp only
        omega
      · dsimp only
        omega
      · dsimp only
        omega
    exact hreserved.commit

theorem framed_grow {increment : Nat}
    (hsize : (afterwards (Image.grow increment image)).bytes.length < 2 ^ 32) :
    (afterwards (Image.grow increment image)).Framed := by
  let grown : Image := { image with
    header := { image.header with totalSize := UInt32.ofNat (image.bytes.length + increment) }
    bytes := image.bytes ++ Bytes.zeros increment }
  have hlength : grown.bytes.length = image.bytes.length + increment := by
    rw [List.length_append, Bytes.length_zeros]
  have hoptions : afterwards (Image.grow increment image) = image ∨
      afterwards (Image.grow increment image) = Image.commit grown := by
    unfold Image.grow
    dsimp only
    split
    · exact Or.inr rfl
    · split
      · exact Or.inl rfl
      · exact Or.inr rfl
  rcases hoptions with hsame | hgrown
  · rw [hsame]
    exact h
  · have hheader : grown.HasHeader := by
      have : headerSize ≤ image.bytes.length := h.hasHeader
      change headerSize ≤ grown.bytes.length
      omega
    rw [hgrown, length_commit hheader] at hsize
    have hused := h.used
    have hframed : grown.Framed :=
      ⟨h.front, h.strings, hused.trans (by omega), hsize⟩
    rw [hgrown]
    exact hframed.commit

end Framed

end Image

end BootTree
