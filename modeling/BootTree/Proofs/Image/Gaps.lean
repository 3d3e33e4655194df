import BootTree.Proofs.Image.Moving

/-!
# BootTree.Proofs.Image.Gaps

Where the edits of a structure block happen, and how a gap that was made there is filled: a property
and a node are written piece by piece, each piece at its own offset.

* `Tree.le_of_property?`, `Tree.le_of_propertiesEnd`, `Tree.cut_of_property?`: places inside the block.
* `Tree.spliced_written`: writing into a gap is making it with other bytes.
* `Tree.overwrite_names`, `Tree.overwrite_value`, `Tree.overwrite_node`: what the pieces come to.
-/

namespace BootTree

open Blob

theorem Located.size_token (found : Located) :
    found.token.size = Token.propertyHead + Bytes.alignUp found.value.length := by
  rw [Located.token, Token.size, Bytes.alignUp_add rfl]

namespace Tree

variable {tree : Tree} {offset old k : Nat} {gap new : Bytes}

/-! ## Where edits happen -/

/-- A property that is found stands where it is said to be. -/
theorem read?_of_propertyFrom {strings name tokens : Bytes} {found : Located}
    (h : propertyFrom strings name offset tokens = .ok (some found)) :
    offset ≤ found.offset ∧
      Token.read? (tokens.drop (found.offset - offset)) = some found.token := by
  have step {token : Token} {tokens : Bytes} {offset : Nat}
      (ih : offset + token.size ≤ found.offset ∧ Token.read? ((tokens.drop token.size).drop
        (found.offset - (offset + token.size))) = some found.token) :
      offset ≤ found.offset ∧
        Token.read? (tokens.drop (found.offset - offset)) = some found.token := by
    rw [List.drop_drop] at ih
    refine ⟨by omega, ?_⟩
    rw [← ih.2]
    congr 2
    omega
  fun_induction propertyFrom strings name offset tokens with
  | case1 | case2 | case6 => cases h
  | case3 offset tokens nameOffset value hread hname =>
    cases h
    exact ⟨Nat.le_refl _, by rw [Nat.sub_self]; exact hread⟩
  | case4 offset tokens nameOffset value hread found' hname hne size ih => exact step (ih h)
  | case5 offset tokens hread ih => exact step (ih h)

theorem read?_of_property? {node : NodeRef} {name : Bytes} {found : Located}
    (h : tree.property? node name = .ok (some found)) :
    Token.read? (tree.structBlock.drop found.offset) = some found.token := by
  unfold property? at h
  split at h
  · cases h
  · obtain ⟨hle, hread⟩ := read?_of_propertyFrom h
    rw [List.drop_drop] at hread
    rw [← hread]
    congr 2
    omega

theorem le_of_property? {node : NodeRef} {name : Bytes} {found : Located}
    (h : tree.property? node name = .ok (some found)) :
    found.offset + found.token.size ≤ tree.structBlock.length := by
  have hsize := Token.size_le_of_read? (read?_of_property? h)
  have := found.token.four_le_size
  rw [List.length_drop] at hsize
  omega

theorem cut_of_property? {node : NodeRef} {name : Bytes} {found : Located}
    (h : tree.property? node name = .ok (some found)) :
    ∃ front place behind : Bytes, tree.structBlock = front ++ ((Bytes.word 3 ++ (place ++
        Bytes.word found.nameOffset)) ++ behind) ∧ front.length = found.offset ∧
      place.length = 4 := by
  obtain ⟨-, ⟨rest, hrest⟩, -⟩ := Token.read?_eq_some_iff.1 (read?_of_property? h)
  have hle := le_of_property? h
  refine ⟨tree.structBlock.take found.offset, Bytes.word (UInt32.ofNat found.value.length),
    found.value ++ rest, ?_, ?_, Bytes.length_word _⟩
  · have hsplit := List.take_append_drop found.offset tree.structBlock
    rw [← hrest] at hsplit
    refine hsplit.symm.trans ?_
    simp only [Located.token, Token.core, List.append_assoc]
  · rw [List.length_take]
    omega

theorem le_of_propertiesEndFrom {tokens : Bytes} {place : Nat}
    (h : propertiesEndFrom offset tokens = .ok place) : place ≤ offset + tokens.length := by
  have step {token : Token} {tokens : Bytes} {offset : Nat} (hread : Token.read? tokens = some token)
      (ih : place ≤ offset + token.size + (tokens.drop token.size).length) :
      place ≤ offset + tokens.length := by
    have := Token.size_le_of_read? hread
    rw [List.length_drop] at ih
    omega
  fun_induction propertiesEndFrom offset tokens with
  | case1 => cases h
  | case2 offset tokens nameOffset value hread size ih => exact step hread (ih h)
  | case3 offset tokens hread ih => exact step hread (ih h)
  | case4 =>
    cases h
    omega

theorem le_of_propertiesEnd {node : NodeRef} {place : Nat}
    (h : tree.propertiesEnd node = .ok place) : place ≤ tree.structBlock.length := by
  unfold propertiesEnd at h
  split at h
  · cases h
  · rename_i henter
    have := lt_of_enter henter
    have := le_of_propertiesEndFrom h
    rw [List.length_drop] at this
    omega

theorem header_reserved (entry : Reservation) (hfree : entrySize ≤ tree.free) :
    { tree with
      reservations := tree.reservations ++ [entry]
      free := tree.free - entrySize : Tree }.header = { tree.header with
        structOffset := tree.header.structOffset + UInt32.ofNat entrySize
        stringsOffset := tree.header.stringsOffset + UInt32.ofNat entrySize } := by
  have hstruct : headerSize + entrySize * ((tree.reservations ++ [entry]).length + 1) =
      tree.structOffset + entrySize := by
    rw [List.length_append, structOffset, List.length_singleton, Nat.mul_succ entrySize]
    omega
  have htotal : tree.structOffset + entrySize + tree.structBlock.length + tree.strings.length +
      (tree.free - entrySize) = tree.totalSize := by
    rw [totalSize, usedSize, stringsOffset]
    omega
  have hstrings : tree.structOffset + entrySize + tree.structBlock.length =
      tree.stringsOffset + entrySize := by
    rw [stringsOffset]
    omega
  rw [header, totalSize, usedSize, stringsOffset, structOffset]
  dsimp only
  rw [hstruct, htotal, hstrings, UInt32.ofNat_add, UInt32.ofNat_add]
  rfl

/-! ## Filling a gap -/

/-- Writing into the stretch that was replaced is replacing it by something else. -/
theorem spliced_written (hin : offset ≤ tree.structBlock.length) (hk : k + new.length ≤ gap.length) :
    (tree.spliced offset old gap).written (offset + k) new =
      tree.spliced offset old (gap.overwrite k new) := by
  have hfront : (tree.structBlock.take offset).length = offset := by
    rw [List.length_take]
    omega
  have hblock := Bytes.overwrite_append_right (tree.structBlock.take offset)
    (gap ++ tree.structBlock.drop (offset + old)) k new
  rw [hfront, Bytes.overwrite_append_left hk, ← List.append_assoc, ← List.append_assoc] at hblock
  rw [written, spliced, spliced, Bytes.length_overwrite hk]
  exact congrArg (fun block => { tree with
    structBlock := block
    free := old + tree.free - gap.length }) hblock

theorem spliced_widen {front head rest : Bytes} (hblock : tree.structBlock = front ++ (head ++ rest))
    (old : Nat) (gap : Bytes) :
    tree.spliced (front.length + head.length) old gap =
      tree.spliced front.length (head.length + old) (head ++ gap) := by
  have hsplice : Bytes.splice tree.structBlock (front.length + head.length) old gap =
      Bytes.splice tree.structBlock front.length (head.length + old) (head ++ gap) := by
    rw [hblock, Bytes.splice, Bytes.splice, List.take_left, ← List.append_assoc front head rest,
      ← List.length_append, List.take_left, List.length_append]
    simp only [List.append_assoc, Nat.add_assoc]
  have hfree : old + tree.free - gap.length = head.length + old + tree.free - (head ++ gap).length := by
    rw [List.length_append]
    omega
  rw [spliced, spliced, hsplice, hfree]

section Property

variable {kind length nameOffset content value : Bytes}

theorem overwrite_names (hkind : kind.length = 4) (hname : nameOffset.length = 4)
    (hgap : Token.propertyHead ≤ gap.length) :
    ∃ length content : Bytes, length.length = 4 ∧
      content.length + Token.propertyHead = gap.length ∧
      (gap.overwrite 0 kind).overwrite 8 nameOffset =
        kind ++ (length ++ (nameOffset ++ content)) := by
  have hcut (bytes : Bytes) (hfour : 4 ≤ bytes.length) :
      ∃ word rest : Bytes, bytes = word ++ rest ∧ word.length = 4 :=
    ⟨bytes.take 4, bytes.drop 4, (List.take_append_drop 4 bytes).symm, List.length_take_of_le hfour⟩
  unfold Token.propertyHead at *
  obtain ⟨a, gap, rfl, ha⟩ := hcut gap (by omega)
  rw [List.length_append] at hgap
  obtain ⟨b, gap, rfl, hb⟩ := hcut gap (by omega)
  rw [List.length_append] at hgap
  obtain ⟨c, d, rfl, hc⟩ := hcut gap (by omega)
  refine ⟨b, d, hb, ?_, ?_⟩
  · simp only [List.length_append]
    omega
  · rw [Bytes.overwrite_front (by omega), ← List.append_assoc kind,
      Bytes.overwrite_mid (by rw [List.length_append]; omega) (by omega), List.append_assoc]

theorem overwrite_value {old : Bytes} (hkind : kind.length = 4) (hold : old.length = 4)
    (hlength : length.length = 4) (hname : nameOffset.length = 4)
    (hvalue : value.length = content.length) :
    ((kind ++ (old ++ (nameOffset ++ content))).overwrite 4 length).overwrite
        Token.propertyHead value = kind ++ (length ++ (nameOffset ++ value)) := by
  have hfront : Token.propertyHead = (kind ++ (length ++ nameOffset)).length := by
    unfold Token.propertyHead
    simp only [List.length_append]
    omega
  have hlast := @Bytes.overwrite_mid _ content [] value _ hfront hvalue
  rw [Bytes.overwrite_mid hkind.symm (by omega)]
  simpa only [List.append_assoc, List.append_nil] using hlast

end Property

theorem length_emptyNode (name : Bytes) :
    (emptyNode name).length = 8 + Bytes.alignUp (name.length + 1) := by
  rw [emptyNode, List.length_append, Token.length_encode, Token.length_encode, Token.size,
    Token.size, Bytes.alignUp_add rfl]
  omega

theorem overwrite_node (name : Bytes) (hgap : gap.length = (emptyNode name).length) :
    (((gap.overwrite 0 (Bytes.zeros gap.length)).overwrite 0 (Bytes.word 1)).overwrite 4
      name).overwrite (gap.length - 4) (Bytes.word 2) = emptyNode name := by
  have haligned := Bytes.le_alignUp (name.length + 1)
  obtain ⟨pad, hpad⟩ : ∃ pad, Bytes.alignUp (name.length + 1) = name.length + pad :=
    ⟨Bytes.alignUp (name.length + 1) - name.length, by omega⟩
  have hsize : gap.length = 4 + (name.length + (pad + 4)) := by
    rw [hgap, length_emptyNode]
    omega
  have hpadded : Bytes.padded (name ++ [0]) = name ++ Bytes.zeros pad := by
    have hpad' : pad = 1 + (Bytes.alignUp (name.length + 1) - (name.length + 1)) := by omega
    rw [Bytes.padded, List.length_append, List.length_singleton, List.append_assoc, hpad',
      Bytes.zeros_add]
    rfl
  have hcleared : gap.overwrite 0 (Bytes.zeros gap.length) =
      Bytes.zeros 4 ++ (Bytes.zeros name.length ++ (Bytes.zeros pad ++ Bytes.zeros 4)) := by
    have hall := @Bytes.overwrite_front gap [] (Bytes.zeros gap.length) (Bytes.length_zeros _)
    rw [List.append_nil, List.append_nil] at hall
    rw [hall, hsize, Bytes.zeros_add, Bytes.zeros_add, Bytes.zeros_add]
  have hlast : gap.length - 4 = (Bytes.word 1 ++ (name ++ Bytes.zeros pad)).length := by
    simp only [List.length_append, Bytes.length_word, Bytes.length_zeros]
    omega
  have hend := @Bytes.overwrite_mid (Bytes.word 1 ++ (name ++ Bytes.zeros pad)) (Bytes.zeros 4) []
    (Bytes.word 2) _ hlast rfl
  simp only [List.append_assoc, List.append_nil] at hend
  rw [hcleared, Bytes.overwrite_front (by rfl), Bytes.overwrite_mid (by rfl)
    (Bytes.length_zeros _).symm, hend]
  simp only [emptyNode, Token.encode, hpadded, List.append_assoc]

end Tree

end BootTree
