import BootTree.Proofs.Image.Gaps

/-!
# BootTree.Proofs.Image.Editing

The edits made inside the buffer and the edits of the blocks agree: on the image of a tree, each
gives the same answer, and the image it leaves behind is the image of the tree the other leaves
behind. This holds for every structure block and every position, also where an edit fails.

* `imaged`: the outcome of an edit of a tree, with the image of the tree it leaves behind.
* `Tree.grow_image`, `Tree.Sized.setValue`, `Tree.Sized.addChild`, `Tree.Sized.reserve`: edit by
  edit.
* `Tree.Sized.runInPlace`: all commands.
-/

namespace BootTree

open Blob

/-- The outcome of an edit, with the image of the tree it leaves behind. -/
def imaged {α : Type} : EStateM.Result TreeError Tree α → EStateM.Result TreeError Image α
  | .ok a tree => .ok a tree.image
  | .error e tree => .error e tree.image

namespace Tree

variable {tree : Tree} {offset old k : Nat} {gap new : Bytes}

/-! ## Growing -/

/-- This takes no bound: the header of a larger image says its size modulo `2 ^ 32`. -/
theorem grow_image (increment : Nat) :
    Image.grow increment tree.image = imaged (Tree.grow increment tree) := by
  have hsize : tree.image.bytes.length = tree.totalSize := tree.length_encode
  have hgrown : Image.commit { tree.image with
      header := { tree.image.header with
        totalSize := UInt32.ofNat (tree.image.bytes.length + increment) }
      bytes := tree.image.bytes ++ Bytes.zeros increment } =
        { tree with free := tree.free + increment : Tree }.image := by
    refine Image.commit_eq (Header.length_encode tree.header) ?_ ?_ rfl
    · dsimp only
      rw [hsize, Tree.totalSize, Nat.add_assoc]
      rfl
    · change tree.encode ++ _ = _
      rw [encode_eq]
      simp only [List.append_assoc, Bytes.zeros_add]
  rw [Image.grow, Tree.grow]
  dsimp only
  have hmax : tree.image.maxSize = tree.maxSize := rfl
  rw [hgrown, hsize, hmax]
  cases tree.maxSize with
  | none => rfl
  | some limit =>
    dsimp only
    by_cases hlimit : limit < tree.totalSize + increment
    · rw [if_pos hlimit, if_pos hlimit]
      rfl
    · rw [if_neg hlimit, if_neg hlimit]
      rfl

/-! ## Inside the buffer -/

namespace Sized

theorem writeStruct_spliced (h : tree.Sized) (hin : offset + old ≤ tree.structBlock.length)
    (hroom : gap.length ≤ old + tree.free) (hk : k + new.length ≤ gap.length) :
    (tree.spliced offset old gap).image.writeStruct (offset + k) new =
      (tree.spliced offset old (gap.overwrite k new)).image := by
  have hlength := @length_spliced tree offset old gap hin
  rw [(h.spliced hin hroom).writeStruct (by omega), spliced_written (by omega) hk]

/-- Edits only ask for what does not depend on the reservations. -/
theorem ask_bind (h : tree.Sized) {α β : Type} {query : Tree → Except TreeError α}
    (hquery : ∀ reservations, query { tree with reservations } = query tree) (f : α → InPlace β) :
    (Image.ask query >>= f) tree.image =
      match query tree with
      | .ok a => f a tree.image
      | .error e => .error e tree.image := by
  simp only [bind, EStateM.bind, Image.ask, h.tree_image, hquery]
  cases query tree <;> rfl

/-- Writing a value into a property that was opened for it. -/
theorem writeValue (h : tree.Sized) {place : Bytes} {nameOffset : UInt32} {content value : Bytes}
    (hin : offset + old ≤ tree.structBlock.length) (hroom : propertyCost value ≤ old + tree.free)
    (hplace : place.length = 4) (hcontent : content.length = Bytes.alignUp value.length) :
    ((tree.spliced offset old (Bytes.word 3 ++ (place ++ (Bytes.word nameOffset ++
      content)))).image.writeStruct (offset + 4) (Bytes.word (UInt32.ofNat value.length))).writeStruct
        (offset + Token.propertyHead) (Bytes.padded value) =
      (tree.spliced offset old (Token.property nameOffset value).encode).image := by
  have hopened : (Bytes.word 3 ++ (place ++ (Bytes.word nameOffset ++ content))).length =
      propertyCost value := by
    simp only [List.length_append, Bytes.length_word, propertyCost, Token.propertyHead]
    omega
  have hpadded := Bytes.length_padded value
  have hlonger : ((Bytes.word 3 ++ (place ++ (Bytes.word nameOffset ++ content))).overwrite 4
      (Bytes.word (UInt32.ofNat value.length))).length = propertyCost value := by
    rw [Bytes.length_overwrite, hopened]
    rw [hopened, Bytes.length_word, propertyCost, Token.propertyHead]
    omega
  rw [h.writeStruct_spliced hin (by omega) (by
      rw [hopened, Bytes.length_word, propertyCost, Token.propertyHead]; omega),
    h.writeStruct_spliced hin (by omega) (by rw [hlonger, propertyCost]; omega),
    overwrite_value (Bytes.length_word _) hplace (Bytes.length_word _) (Bytes.length_word _)
      (by omega)]
  simp only [Token.encode, List.append_assoc]

/-! ## Edit by edit -/

theorem openProperty_error (h : tree.Sized) {node : NodeRef} {name value : Bytes}
    (hfree : tree.free < propertyCost value + tree.nameCost name) :
    Image.openProperty node name value tree.image =
      .error (.noSpace (propertyCost value + tree.nameCost name)) tree.image := by
  unfold Image.openProperty
  rw [Edit.get_bind, h.strings, h.free]
  change (if tree.free < propertyCost value + tree.nameCost name then _ else _ : InPlace Nat)
    tree.image = _
  rw [if_pos hfree]
  rfl

/-- With enough free space, the name of a new property is in the strings block before anything
else happens. -/
theorem openProperty_named (h : tree.Sized) {node : NodeRef} {name value : Bytes}
    (hfree : propertyCost value + tree.nameCost name ≤ tree.free) :
    Image.openProperty node name value tree.image = (do
      let offset ← Image.ask (·.propertiesEnd node)
      Image.spliceStruct offset 0 (propertyCost value)
      modify (·.writeStruct offset (Bytes.word 3))
      modify (·.writeStruct (offset + 8) (Bytes.word (UInt32.ofNat (tree.nameOffset name))))
      return offset : InPlace Nat) (tree.withName name).image := by
  unfold Image.openProperty
  rw [Edit.get_bind, h.strings, h.free]
  change (if tree.free < propertyCost value + tree.nameCost name then _ else _ : InPlace Nat)
    tree.image = _
  rw [if_neg (by omega)]
  change (Image.internName name >>= _) _ = _
  rw [Edit.bind_of_ok (h.internName (by omega))]
  rfl

theorem openProperty (h : tree.Sized) {node : NodeRef} {name value : Bytes}
    (hfree : propertyCost value + tree.nameCost name ≤ tree.free)
    (hend : tree.propertiesEnd node = .ok offset) :
    ∃ place content : Bytes, place.length = 4 ∧ content.length = Bytes.alignUp value.length ∧
      Image.openProperty node name value tree.image = .ok offset ((tree.withName name).spliced
        offset 0 (Bytes.word 3 ++ (place ++
          (Bytes.word (UInt32.ofNat (tree.nameOffset name)) ++ content)))).image := by
  have hcost : tree.nameCost name ≤ tree.free := by omega
  have hnamed := h.withName hcost
  have hleft := tree.free_withName hcost
  have hin : offset + 0 ≤ (tree.withName name).structBlock.length := by
    rw [structBlock_withName]
    exact le_of_propertiesEnd hend
  have hroom : propertyCost value ≤ 0 + (tree.withName name).free := by omega
  obtain ⟨gap, hgap, hsplice⟩ := hnamed.spliceStruct hin hroom
  have hhead : 12 ≤ gap.length := by
    rw [hgap, propertyCost, Token.propertyHead]
    omega
  have hwords (w : UInt32) : (Bytes.word w).length = 4 := Bytes.length_word w
  obtain ⟨place, content, hplace, hcontent, hwritten⟩ :=
    overwrite_names (hwords 3) (hwords (UInt32.ofNat (tree.nameOffset name))) hhead
  refine ⟨place, content, hplace, ?_, ?_⟩
  · rw [propertyCost] at hgap
    omega
  · have hlength : (gap.overwrite 0 (Bytes.word 3)).length = gap.length :=
      Bytes.length_overwrite (by rw [hwords]; omega)
    have hkind : ((tree.withName name).spliced offset 0 gap).image.writeStruct offset
        (Bytes.word 3) =
          ((tree.withName name).spliced offset 0 (gap.overwrite 0 (Bytes.word 3))).image :=
      hnamed.writeStruct_spliced (k := 0) hin (by omega) (by rw [hwords]; omega)
    rw [h.openProperty_named hfree, hnamed.ask_bind (fun _ => rfl), propertiesEnd_withName, hend]
    dsimp only
    rw [Edit.bind_of_ok hsplice, Edit.modify_bind, Edit.modify_bind, ← hwritten, hkind,
      hnamed.writeStruct_spliced hin (by omega) (by rw [hwords]; omega)]
    rfl

theorem openValue_error (h : tree.Sized) {old : Located} {value : Bytes}
    (hroom : Bytes.alignUp old.value.length + tree.free < Bytes.alignUp value.length) :
    Image.openValue old value tree.image = .error
      (.noSpace (Bytes.alignUp value.length - Bytes.alignUp old.value.length)) tree.image := by
  unfold Image.openValue
  exact Edit.bind_of_error (h.spliceStruct_error hroom) _

theorem openValue (h : tree.Sized) {node : NodeRef} {name value : Bytes} {found : Located}
    (hfound : tree.property? node name = .ok (some found))
    (hroom : Bytes.alignUp value.length ≤ Bytes.alignUp found.value.length + tree.free) :
    ∃ place content : Bytes, place.length = 4 ∧ content.length = Bytes.alignUp value.length ∧
      Image.openValue found value tree.image = .ok found.offset (tree.spliced found.offset
        found.token.size (Bytes.word 3 ++ (place ++
          (Bytes.word found.nameOffset ++ content)))).image := by
  obtain ⟨front, place, behind, hblock, hfront, hplace⟩ := cut_of_property? hfound
  have hsize := found.size_token
  have hin := le_of_property? hfound
  have hhead : (Bytes.word 3 ++ (place ++ Bytes.word found.nameOffset)).length =
      Token.propertyHead := by
    simp only [List.length_append, Bytes.length_word, hplace]
    rfl
  have hstretch : found.offset + Token.propertyHead + Bytes.alignUp found.value.length ≤
      tree.structBlock.length := by omega
  obtain ⟨gap, hgap, hsplice⟩ := h.spliceStruct hstretch hroom
  rw [← hfront, ← hhead, spliced_widen hblock, hhead, ← hsize, hfront, List.append_assoc,
    List.append_assoc] at hsplice
  refine ⟨place, gap, hplace, hgap, ?_⟩
  unfold Image.openValue
  exact Edit.bind_of_ok hsplice _

/-- Creating or replacing a property inside the buffer is doing so in the tree. -/
theorem setValue (h : tree.Sized) (node : NodeRef) (name value : Bytes) :
    Image.setValue node name value tree.image = imaged (Tree.setValue node name value tree) := by
  rw [setValue_eq]
  unfold Image.setValue
  rw [h.ask_bind (fun _ => rfl)]
  cases hfound : tree.property? node name with
  | error e => rfl
  | ok found =>
    cases found with
    | none =>
      dsimp only
      rw [appendProperty_eq]
      by_cases hfree : tree.free < propertyCost value + tree.nameCost name
      · rw [if_pos hfree]
        exact Edit.bind_of_error (h.openProperty_error hfree) _
      · have hfits : propertyCost value + tree.nameCost name ≤ tree.free := by omega
        have hcost : tree.nameCost name ≤ tree.free := by omega
        have hleft := tree.free_withName hcost
        rw [if_neg hfree]
        cases hend : tree.propertiesEnd node with
        | error e =>
          refine Edit.bind_of_error ?_ _
          rw [h.openProperty_named hfits, (h.withName hcost).ask_bind (fun _ => rfl),
            propertiesEnd_withName, hend]
        | ok offset =>
          obtain ⟨place, content, hplace, hcontent, hopen⟩ := h.openProperty hfits hend
          have hin : offset + 0 ≤ (tree.withName name).structBlock.length := by
            rw [structBlock_withName]
            exact le_of_propertiesEnd hend
          rw [Edit.bind_of_ok hopen, Edit.modify_bind]
          exact congrArg (EStateM.Result.ok ())
            ((h.withName hcost).writeValue hin (by omega) hplace hcontent)
    | some old =>
      have hsize := old.size_token
      dsimp only
      rw [spliceStruct_eq, length_property_encode]
      by_cases hroom : Bytes.alignUp old.value.length + tree.free < Bytes.alignUp value.length
      · rw [if_pos (by rw [propertyCost]; omega), hsize, propertyCost, Nat.add_sub_add_left]
        exact Edit.bind_of_error (h.openValue_error hroom) _
      · obtain ⟨place, content, hplace, hcontent, hopen⟩ :=
          h.openValue hfound (Nat.le_of_not_lt hroom)
        rw [if_neg (by rw [propertyCost]; omega), Edit.bind_of_ok hopen, Edit.modify_bind]
        exact congrArg (EStateM.Result.ok ())
          (h.writeValue (le_of_property? hfound) (by rw [propertyCost]; omega) hplace hcontent)

theorem reserve (h : tree.Sized) (entry : Reservation) :
    Image.reserve entry tree.image = imaged (Tree.reserve entry tree) := by
  let front := tree.header.encode ++ tree.reservations.flatMap Reservation.encode
  let behind := Reservation.terminator.encode ++ (tree.structBlock ++ tree.strings)
  have hlength : (tree.reservations.flatMap Reservation.encode).length =
      entrySize * tree.reservations.length := by
    have := Reservation.length_encodeBlock tree.reservations
    rw [Reservation.encodeBlock, List.length_append, Reservation.length_encode] at this
    rw [Nat.mul_succ] at this
    omega
  have hplace : tree.image.header.structOffset.toNat - entrySize = front.length := by
    have hoffset : tree.image.header.structOffset.toNat = tree.structOffset := h.structOffset
    rw [hoffset, List.length_append, Header.length_encode, hlength, Tree.structOffset, Nat.mul_succ]
    omega
  have hbytes : tree.image.bytes = front ++ ([] ++ (behind ++ Bytes.zeros tree.free)) := by
    change tree.encode = _
    rw [encode_eq]
    simp only [Reservation.encodeBlock, front, behind, List.append_assoc, List.nil_append]
  have hused : tree.image.usedSize = front.length + (([] : Bytes).length + behind.length) := by
    rw [h.usedSize, Tree.usedSize, Tree.stringsOffset, Tree.structOffset]
    simp only [front, behind, List.length_append, Header.length_encode, Reservation.length_encode,
      hlength, List.length_nil, Nat.mul_succ]
    omega
  unfold Image.reserve
  rw [Edit.get_bind, Tree.reserve]
  dsimp only
  rw [hplace]
  by_cases hfree : tree.free < entrySize
  · rw [if_pos hfree]
    exact Edit.bind_of_error (Image.splice_error (by rw [h.free]; omega)) _
  · obtain ⟨gap, hgap, hsplice⟩ :=
      Image.splice_eq hbytes hused rfl (show entrySize ≤ ([] : Bytes).length + tree.free by omega)
    rw [List.length_nil] at hsplice
    rw [if_neg hfree, Edit.bind_of_ok hsplice]
    refine congrArg (EStateM.Result.ok ()) (Image.commit_eq (Header.length_encode tree.header)
      ?_ ?_ rfl)
    · exact (header_reserved entry (Nat.le_of_not_lt hfree)).symm
    · dsimp only
      rw [Bytes.overwrite_mid rfl (by rw [hgap, Reservation.length_encode])]
      simp only [Reservation.encodeBlock, front, behind, List.append_assoc, List.flatMap_append,
        List.flatMap_cons, List.flatMap_nil, List.append_nil, Nat.zero_add]

theorem insertNode (h : tree.Sized) (name : Bytes) (hin : offset ≤ tree.structBlock.length) :
    (do
      let size := 8 + Bytes.alignUp (name.length + 1)
      Image.spliceStruct offset 0 size
      modify (·.writeStruct offset (Bytes.zeros size))
      modify (·.writeStruct offset (Bytes.word 1))
      modify (·.writeStruct (offset + 4) name)
      modify (·.writeStruct (offset + (size - 4)) (Bytes.word 2))
      return ⟨offset⟩ : InPlace NodeRef) tree.image =
      imaged ((do
        Tree.spliceStruct offset 0 (emptyNode name)
        return ⟨offset⟩ : Edit NodeRef) tree) := by
  have hin' : offset + 0 ≤ tree.structBlock.length := hin
  have hsize := length_emptyNode name
  have haligned := Bytes.le_alignUp (name.length + 1)
  dsimp only
  by_cases hroom : 0 + tree.free < (emptyNode name).length
  · have hfail : Image.spliceStruct offset 0 (emptyNode name).length tree.image =
        .error (.noSpace ((emptyNode name).length - 0)) tree.image := h.spliceStruct_error hroom
    have hfail' : Tree.spliceStruct offset 0 (emptyNode name) tree =
        .error (.noSpace ((emptyNode name).length - 0)) tree := by
      rw [spliceStruct_eq, if_pos hroom]
    rw [Edit.bind_of_error hfail', ← hsize]
    exact Edit.bind_of_error hfail _
  · have hdone : Tree.spliceStruct offset 0 (emptyNode name) tree =
        .ok () (tree.spliced offset 0 (emptyNode name)) := by
      rw [spliceStruct_eq, if_neg hroom]
    obtain ⟨gap, hgap, hsplice⟩ := h.spliceStruct hin' (Nat.le_of_not_lt hroom)
    have hcleared : (gap.overwrite 0 (Bytes.zeros gap.length)).length = gap.length :=
      Bytes.length_overwrite (by rw [Bytes.length_zeros]; omega)
    have hbegun : ((gap.overwrite 0 (Bytes.zeros gap.length)).overwrite 0 (Bytes.word 1)).length =
        gap.length := by
      rw [Bytes.length_overwrite (by rw [Bytes.length_word]; omega), hcleared]
    have hnamed : (((gap.overwrite 0 (Bytes.zeros gap.length)).overwrite 0
        (Bytes.word 1)).overwrite 4 name).length = gap.length := by
      rw [Bytes.length_overwrite (by omega), hbegun]
    have hwrite {k : Nat} {gap new : Bytes} (hgap : gap.length = (emptyNode name).length)
        (hk : k + new.length ≤ gap.length) :
        (tree.spliced offset 0 gap).image.writeStruct (offset + k) new =
          (tree.spliced offset 0 (gap.overwrite k new)).image :=
      h.writeStruct_spliced hin' (by omega) hk
    have hclear : (tree.spliced offset 0 gap).image.writeStruct offset (Bytes.zeros gap.length) =
        (tree.spliced offset 0 (gap.overwrite 0 (Bytes.zeros gap.length))).image :=
      hwrite (k := 0) hgap (by rw [Bytes.length_zeros]; omega)
    have hbegin : (tree.spliced offset 0 (gap.overwrite 0
        (Bytes.zeros gap.length))).image.writeStruct offset (Bytes.word 1) =
          (tree.spliced offset 0 ((gap.overwrite 0 (Bytes.zeros gap.length)).overwrite 0
            (Bytes.word 1))).image :=
      hwrite (k := 0) (hcleared.trans hgap) (by rw [Bytes.length_word]; omega)
    rw [Edit.bind_of_ok hdone, ← hsize, Edit.bind_of_ok hsplice, ← hgap, Edit.modify_bind,
      Edit.modify_bind, Edit.modify_bind, Edit.modify_bind, hclear, hbegin,
      hwrite (hbegun.trans hgap) (by omega),
      hwrite (hnamed.trans hgap) (by rw [Bytes.length_word]; omega), overwrite_node name hgap]
    rfl

theorem addChild (h : tree.Sized) (parent : NodeRef) (name : Bytes) :
    Image.addChild parent name tree.image = imaged (Tree.addChild parent name tree) := by
  unfold Image.addChild Tree.addChild
  by_cases hname : isNodeName name = true
  · rw [if_pos hname, if_pos hname]
    change (Image.ask (·.namesake? parent name) >>= _) _ =
      imaged ((Edit.ask (·.namesake? parent name) >>= _) _)
    rw [h.ask_bind (fun _ => namesake?_congr (by rfl) parent name), Edit.ask_bind]
    cases tree.namesake? parent name with
    | error e => rfl
    | ok found =>
      cases found with
      | some child => rfl
      | none =>
        change (Image.ask (·.propertiesEnd parent) >>= _) _ =
          imaged ((Edit.ask (·.propertiesEnd parent) >>= _) _)
        rw [h.ask_bind (fun _ => rfl), Edit.ask_bind]
        cases hend : tree.propertiesEnd parent with
        | error e => rfl
        | ok offset => exact h.insertNode name (le_of_propertiesEnd hend)
  · rw [if_neg hname, if_neg hname]
    rfl

/-! ## All edits -/

theorem imaged_discard {x' : InPlace NodeRef} {x : Edit NodeRef}
    (hx : x' tree.image = imaged (x tree)) :
    (discard x' : InPlace Unit) tree.image = imaged ((discard x : Edit Unit) tree) := by
  simp only [discard, Functor.discard, Functor.mapConst, EStateM.map, Function.comp, hx]
  cases x tree with
  | ok a after => rfl
  | error e after => rfl

/-- Every edit made inside the buffer gives the answer and the image of the edit of the tree. -/
theorem runInPlace (h : tree.Sized) (command : Command) :
    command.runInPlace tree.image = imaged (command.run tree) := by
  cases command with
  | grow increment => exact grow_image increment
  | reserve entry => exact h.reserve entry
  | setValue node name value => exact h.setValue node name value
  | setCell node name cell => exact h.setValue node name (Bytes.word cell)
  | setDoubleCell node name cell => exact h.setValue node name (Bytes.doubleWord cell)
  | setCells node name cells => exact h.setValue node name (Cells.encode cells)
  | setText node name text => exact h.setValue node name (text ++ [0])
  | addChild parent name => exact imaged_discard (h.addChild parent name)

end Sized

theorem Encodable.runInPlace (h : tree.Encodable) (command : Command) :
    command.runInPlace tree.image = imaged (command.run tree) := h.sized.runInPlace command

end Tree

end BootTree
