import BootTree.Proofs.Bounds.Framed

/-!
# BootTree.Proofs.Bounds.Faultless

The edits of an image, each put together from steps that keep the frame: none of them makes an access
that is out of bounds, and each leaves the frame behind, whether it succeeds or fails.

* `Image.Framed.safe_setValue`, `Image.Framed.safe_addChild`: a property, and a node.
* `Command.runChecked_eq`, `Command.framed_runInPlace`: all edits.
-/

namespace BootTree

open Blob

namespace Image

namespace Framed

variable {image : Image} (h : image.Framed)

include h

/-! ## Properties and nodes -/

theorem safe_internName {name : Bytes} :
    Safe (CheckedEdit.internName name) (Image.internName name) image fun _ _ => True := by
  refine (h.safe_get h.hasBlocks).bind ?_
  rintro _ _ - ⟨rfl, rfl⟩
  cases Strings.find? image.strings name with
  | some offset => exact .pure h trivial
  | none => exact h.safe_appendName

theorem safe_openValue {node : NodeRef} {name value : Bytes} {old : Located}
    (hold : image.tree.property? node name = .ok (some old)) :
    Safe (CheckedEdit.openValue old value) (Image.openValue old value) image
      fun offset after => offset + Token.propertyHead + Bytes.alignUp value.length ≤
        after.header.structSize.toNat := by
  have hin := Tree.le_of_property? hold
  rw [old.size_token, h.length_structBlock] at hin
  refine (h.safe_spliceStruct (by omega)).bind ?_
  intro _ after hframed hresized
  exact .pure hframed (by omega)

theorem safe_openProperty {node : NodeRef} {name value : Bytes} :
    Safe (CheckedEdit.openProperty node name value) (Image.openProperty node name value) image
      fun offset after => offset + Token.propertyHead + Bytes.alignUp value.length ≤
        after.header.structSize.toNat := by
  refine (h.safe_get ⟨h.hasBlocks, h.hasFree⟩).bind ?_
  rintro _ _ - ⟨rfl, rfl⟩
  refine .ite (fun _ => .fail h) ?_
  · intro _
    refine h.safe_internName.bind ?_
    intro nameOffset named hnamed _
    refine (hnamed.safe_ask rfl).bind ?_
    rintro offset _ - ⟨rfl, hend⟩
    have hin := Tree.le_of_propertiesEnd hend
    rw [hnamed.length_structBlock] at hin
    refine (hnamed.safe_spliceStruct (by omega)).bind ?_
    intro _ opened hopened hresized
    refine (hopened.safe_write (by omega) (by rw [Bytes.length_word]; decide)).bind ?_
    intro _ kind hkind hkindHeader
    have hwindow : offset + Token.propertyHead ≤ kind.header.structSize.toNat := by
      rw [hkindHeader]
      omega
    refine (hkind.safe_write hwindow (by rw [Bytes.length_word]; decide)).bind ?_
    intro _ after hafter hheader
    refine .pure hafter ?_
    rw [hheader, hkindHeader]
    omega

/-- Writing the value of a property for which there is room. -/
theorem safe_writeValue {offset : Nat} {value : Bytes}
    (hroom : offset + Token.propertyHead + Bytes.alignUp value.length ≤
      image.header.structSize.toNat) :
    Safe (do
      CheckedEdit.write (offset + 4) 4 0 (Bytes.word (UInt32.ofNat value.length))
      CheckedEdit.write (offset + Token.propertyHead) (Bytes.alignUp value.length) 0
        (Bytes.padded value)) (do
      modify (·.writeStruct (offset + 4) (Bytes.word (UInt32.ofNat value.length)))
      modify (·.writeStruct (offset + Token.propertyHead) (Bytes.padded value))) image
      fun _ _ => True := by
  have hhead : Token.propertyHead = 12 := rfl
  refine (h.safe_write (by omega) (by rw [Bytes.length_word])).bind ?_
  intro _ counted hcounted hheader
  rw [← hheader] at hroom
  refine (hcounted.safe_write hroom (by rw [Bytes.length_padded, Nat.zero_add])).mono ?_
  exact fun _ _ _ => trivial

theorem safe_setValue (node : NodeRef) (name value : Bytes) :
    Safe (CheckedEdit.setValue node name value) (Image.setValue node name value) image
      fun _ _ => True := by
  refine (h.safe_ask rfl).bind ?_
  rintro found _ - ⟨rfl, hfound⟩
  cases found with
  | some old =>
    refine (h.safe_openValue hfound).bind ?_
    exact fun _ _ hopened hroom => hopened.safe_writeValue hroom
  | none =>
    refine h.safe_openProperty.bind ?_
    exact fun _ _ hopened hroom => hopened.safe_writeValue hroom

theorem safe_addChild (parent : NodeRef) (name : Bytes) :
    Safe (CheckedEdit.addChild parent name) (Image.addChild parent name) image
      fun _ _ => True := by
  refine .ite (fun _ => ?_) (fun _ => .fail h)
  refine (h.safe_ask (Checked.namesake?_eq h.length_structBlock_lt)).bind ?_
  rintro found _ - ⟨rfl, -⟩
  refine .ite (fun _ => .fail h) (fun _ => ?_)
  refine (h.safe_ask rfl).bind ?_
  rintro offset _ - ⟨rfl, hend⟩
  have hin := Tree.le_of_propertiesEnd hend
  rw [h.length_structBlock] at hin
  have hname := Bytes.le_alignUp (name.length + 1)
  refine (h.safe_spliceStruct (by omega)).bind ?_
  intro _ opened hopened hresized
  have hroom : offset + (8 + Bytes.alignUp (name.length + 1)) ≤ opened.header.structSize.toNat := by
    omega
  -- all four of them are written into the stretch that was opened
  refine (hopened.safe_write hroom (by rw [Bytes.length_zeros, Nat.zero_add])).bind ?_
  intro _ cleared hcleared hheader
  rw [← hheader] at hroom
  refine (hcleared.safe_write hroom (by rw [Bytes.length_word]; omega)).bind ?_
  intro _ begun hbegun hheader
  rw [← hheader] at hroom
  refine (hbegun.safe_write hroom (by omega)).bind ?_
  intro _ named hnamed hheader
  rw [← hheader] at hroom
  refine (hnamed.safe_write hroom (by rw [Bytes.length_word]; omega)).bind ?_
  exact fun _ _ hended _ => .pure hended trivial

end Framed

end Image

theorem Safe.discard {x : CheckedEdit NodeRef} {x' : InPlace NodeRef} {image : Image}
    (h : Safe x x' image fun _ _ => True) :
    Safe (do let _ ← x; return ()) (Functor.discard x' : InPlace Unit) image fun _ _ => True := by
  have hbind : (x' >>= fun _ => Pure.pure ()) image =
      (Functor.discard x' : InPlace Unit) image := by
    simp only [Functor.discard, Functor.mapConst, EStateM.map, Function.comp, Bind.bind,
      EStateM.bind]
    cases x' image <;> rfl
  have hunit : Safe (do let _ ← x; return ()) (x' >>= fun _ => Pure.pure ()) image
      fun _ _ => True := h.bind fun _ _ hafter _ => .pure hafter trivial
  refine ⟨?_, ?_, fun _ _ _ => trivial⟩
  · rw [← hbind]
    exact hunit.run
  · rw [← hbind]
    exact hunit.framed

namespace Command

variable {image : Image}

theorem safe_runChecked (command : Command) (h : image.Framed)
    (hgrow : ∀ increment, command ≠ .grow increment) :
    Safe command.runChecked command.runInPlace image fun _ _ => True := by
  cases command with
  | grow increment => exact absurd rfl (hgrow increment)
  | reserve entry => exact h.safe_reserve entry
  | setValue node name value => exact h.safe_setValue node name value
  | setCell node name cell => exact h.safe_setValue node name (Bytes.word cell)
  | setDoubleCell node name cell => exact h.safe_setValue node name (Bytes.doubleWord cell)
  | setCells node name cells => exact h.safe_setValue node name (Cells.encode cells)
  | setText node name text => exact h.safe_setValue node name (text ++ [0])
  | addChild parent name => exact (h.safe_addChild parent name).discard

/-- A command only faults if it overflows, and is the command otherwise. -/
theorem runChecked_eq (command : Command) (h : image.Framed) :
    command.runChecked image =
      if command.Overflows image then none else some (command.runInPlace image) := by
  by_cases hgrow : ∃ increment, command = .grow increment
  · obtain ⟨increment, rfl⟩ := hgrow
    change (if image.bytes.length + increment < 2 ^ 64 ∧ image.HasHeader then _ else _) = _
    by_cases hfits : image.bytes.length + increment < 2 ^ 64
    · have hno : ¬ (Command.grow increment).Overflows image := Nat.not_le.2 hfits
      rw [if_pos ⟨hfits, h.hasHeader⟩, if_neg hno]
      rfl
    · have hover : (Command.grow increment).Overflows image := Nat.not_lt.1 hfits
      rw [if_neg (fun hbounds => hfits hbounds.1), if_pos hover]
  · rw [(command.safe_runChecked h fun increment heq => hgrow ⟨increment, heq⟩).run]
    have hno : ¬ command.Overflows image := by
      intro hover
      cases command with
      | grow increment => exact hgrow ⟨increment, rfl⟩
      | _ => exact hover
    rw [if_neg hno]

/-- Every command keeps the frame, also where it fails. -/
theorem framed_runInPlace (command : Command) (h : image.Framed)
    (hsize : (afterwards (command.runInPlace image)).bytes.length < 2 ^ 32) :
    (afterwards (command.runInPlace image)).Framed := by
  by_cases hgrow : ∃ increment, command = .grow increment
  · obtain ⟨increment, rfl⟩ := hgrow
    exact h.framed_grow hsize
  · exact (command.safe_runChecked h fun increment heq => hgrow ⟨increment, heq⟩).framed

end Command

end BootTree
