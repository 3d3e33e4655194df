import BootTree.Proofs.Document.Answers
import BootTree.Proofs.Image.Editing
import BootTree.Proofs.Tree.SetValue
import BootTree.Proofs.Value.StringList

/-!
# BootTree.Proofs.Tree.Typed

Properties that are written and read as values of a type. What is written as a type is read back as
that type, through the padded token that stores it; and of the values that are stored, however they
came there, each type takes exactly its own and reports the length of any other.

* `Bytes.isText_append_zero`: a terminator neither makes text of bytes nor spoils it.
* `Bytes.bigEndian`: the bytes of words.
* `StringList.exists_text_iff`: the values that hold one string.
* `ReadsExactly`: what reading a value as a type answers; `Tree.readsExactly_cell`,
  `Tree.readsExactly_cells` and `Tree.readsExactly_text` for each type, in trees of any bytes.
* `Tree.Stores.value_of_setValue`: a value that is written is the one that is stored.
* `Tree.Stores.reads_written`: written values, and the values of each type.
-/

namespace BootTree

open Blob

/-! ## Text -/

namespace Bytes

/-- A text is a sequence of characters, one encoded behind the other. -/
theorem isText_iff_flatMap {bytes : Bytes} : isText bytes = true ↔
    ∃ chars : List Char, bytes = chars.flatMap String.utf8EncodeChar := by
  have hofText (chars : List Char) :
      ofText (String.ofList chars) = chars.flatMap String.utf8EncodeChar := by
    simp [ofText, List.utf8Encode]
  rw [isText_iff]
  constructor
  · rintro ⟨s, rfl⟩
    exact ⟨s.toList, by rw [← hofText, String.ofList_toList]⟩
  · rintro ⟨chars, rfl⟩
    exact ⟨String.ofList chars, hofText chars⟩

/-- Zero begins a character, so a character that ends with it has no other byte. -/
theorem encodeChar_of_getLast {c : Char} {front : Bytes}
    (h : String.utf8EncodeChar c = front ++ [0]) : front = [] := by
  have hlast : front.length < (String.utf8EncodeChar c).length := by simp [h]
  have hzero : (String.utf8EncodeChar c)[front.length] = 0 := by simp [h]
  have hfirst : UInt8.IsUTF8FirstByte (String.utf8EncodeChar c)[front.length] := by
    rw [hzero]
    decide
  exact List.length_eq_zero_iff.1 (UInt8.isUTF8FirstByte_getElem_utf8EncodeChar.1 hfirst)

theorem isText_append_zero {bytes : Bytes} :
    isText (bytes ++ [0]) = true ↔ isText bytes = true := by
  rw [isText_iff_flatMap, isText_iff_flatMap]
  constructor
  · rintro ⟨chars, h⟩
    rcases List.eq_nil_or_concat chars with rfl | ⟨front, c, rfl⟩
    · simp at h
    · -- The last character ends with the terminator, so it is the terminator.
      rw [List.concat_eq_append, List.flatMap_append, List.flatMap_singleton] at h
      rcases List.eq_nil_or_concat (String.utf8EncodeChar c) with hnil | ⟨rest, b, hc⟩
      · exact absurd hnil String.utf8EncodeChar_ne_nil
      · rw [List.concat_eq_append] at hc
        rw [hc, ← List.append_assoc] at h
        obtain ⟨hbytes, hb⟩ := List.append_inj' h rfl
        cases hb
        rw [encodeChar_of_getLast hc, List.append_nil] at hbytes
        exact ⟨front, hbytes⟩
  · rintro ⟨chars, rfl⟩
    exact ⟨chars ++ [Char.ofNat 0], by rw [List.flatMap_append]; rfl⟩

/-! ## Words -/

/-- The low bytes of a number, most significant first. -/
def bigEndian : Nat → Nat → Bytes
  | 0, _ => []
  | width + 1, n => bigEndian width (n / 256) ++ [UInt8.ofNat n]

theorem bigEndian_add (front width n : Nat) :
    bigEndian (front + width) n = bigEndian front (n / 256 ^ width) ++ bigEndian width n := by
  induction width generalizing n with
  | zero => simp [bigEndian]
  | succ width ih =>
    rw [← Nat.add_assoc, bigEndian, ih, bigEndian, List.append_assoc, Nat.div_div_eq_div_mul,
      Nat.pow_succ']

theorem bigEndian_mod (width n : Nat) : bigEndian width (n % 256 ^ width) = bigEndian width n := by
  induction width generalizing n with
  | zero => rfl
  | succ width ih =>
    have hlow : UInt8.ofNat (n % 256 ^ (width + 1)) = UInt8.ofNat n := by
      apply UInt8.toNat_inj.1
      rw [UInt8.toNat_ofNat', UInt8.toNat_ofNat', Nat.pow_succ']
      exact Nat.mod_mul_right_mod n 256 _
    have hhigh : n % 256 ^ (width + 1) / 256 = n / 256 % 256 ^ width := by
      rw [Nat.pow_succ', Nat.mod_mul_right_div_self]
    rw [bigEndian, bigEndian, hlow, hhigh, ih]

theorem word_eq_bigEndian (w : UInt32) : word w = bigEndian 4 w.toNat := by
  simp [word, bigEndian, Nat.div_div_eq_div_mul]

theorem doubleWord_eq_bigEndian (w : UInt64) : doubleWord w = bigEndian 8 w.toNat := by
  have hmod (n : Nat) : bigEndian 4 (n % 2 ^ 32) = bigEndian 4 n := bigEndian_mod 4 n
  rw [doubleWord, word_eq_bigEndian, word_eq_bigEndian, UInt32.toNat_ofNat', UInt32.toNat_ofNat',
    hmod, hmod]
  exact (bigEndian_add 4 4 w.toNat).symm

end Bytes

/-! ## Single strings -/

namespace StringList

variable {raw : Bytes}

/-- A value holds one string if it is text and its last byte is its only zero byte. -/
theorem exists_text_iff : (∃ text, StringList.text raw = .ok text) ↔
    Bytes.isText raw = true ∧ raw.getLast? = some 0 ∧ raw.count 0 = 1 := by
  constructor
  · rintro ⟨text, h⟩
    obtain ⟨rfl, hzero, htext⟩ := text_eq_ok_iff.1 h
    refine ⟨Bytes.isText_append_zero.2 htext, List.getLast?_concat, ?_⟩
    rw [List.count_append, List.count_eq_zero_of_not_mem hzero]
    rfl
  · rintro ⟨htext, hlast, hcount⟩
    obtain ⟨text, rfl⟩ := List.getLast?_eq_some_iff.1 hlast
    have hzero : 0 ∉ text := by
      rw [List.count_append, List.count_singleton_self] at hcount
      exact List.count_eq_zero.1 (by omega)
    exact ⟨text, text_eq_ok_iff.2 ⟨rfl, hzero, Bytes.isText_append_zero.1 htext⟩⟩

end StringList

/-! ## Values of a type -/

/-- What reading a value as a type answers: values that the type accepts are read with their
meaning, and of every other value the length is reported. -/
structure ReadsExactly {α : Type} (answer : Except TreeError (Option α)) (raw : Bytes)
    (accepts : Prop) (means : α → Prop) : Prop where
  accepted : accepts → ∃ a, answer = .ok (some a) ∧ means a
  refused : ¬ accepts → answer = .error (.badValue raw.length)

namespace Tree

variable {tree : Tree} {node : NodeRef} {name raw : Bytes}

theorem readsExactly_valueAs {α : Type} {decode : Bytes → Except ValueError α} {accepts : Prop}
    {means : α → Prop} (hvalue : tree.value node name = .ok (some raw))
    (haccepts : accepts ↔ ∃ a, decode raw = .ok a) (hmeans : ∀ a, decode raw = .ok a → means a) :
    ReadsExactly (tree.valueAs decode node name) raw accepts means := by
  rw [valueAs, hvalue]
  dsimp only
  constructor
  · intro h
    obtain ⟨a, ha⟩ := haccepts.1 h
    exact ⟨a, by rw [ha], hmeans a ha⟩
  · intro h
    cases hdecode : decode raw with
    | error e => rfl
    | ok a => exact absurd (haccepts.2 ⟨a, hdecode⟩) h

/-- The length of a value that is stored fits into the word that stores it. -/
theorem length_lt_of_value (h : tree.value node name = .ok (some raw)) : raw.length < 2 ^ 32 := by
  obtain ⟨found, hfound, rfl⟩ := value_eq_some_iff.1 h
  exact Token.isStorable_of_read? (read?_of_property? hfound)

theorem readsExactly_cell (h : tree.value node name = .ok (some raw)) :
    ReadsExactly (tree.cell node name) raw (raw.length = 4)
      fun cell => raw = Bytes.bigEndian 4 cell.toNat := by
  refine readsExactly_valueAs h ⟨fun hlength => ⟨_, singleCell_of_length hlength⟩, ?_⟩ ?_
  · rintro ⟨cell, hcell⟩
    rw [eq_word_of_singleCell hcell, Bytes.length_word]
  · intro cell hcell
    rw [eq_word_of_singleCell hcell, Bytes.word_eq_bigEndian]

theorem readsExactly_cells (h : tree.value node name = .ok (some raw)) :
    ReadsExactly (tree.cells node name) raw (raw.length % 4 = 0)
      fun cells => Cells.encode cells = raw ∧ ∀ index, Cells.get? raw index = cells[index]? := by
  refine readsExactly_valueAs h ?_ ?_
  · rw [Cells.decode]
    split <;> simp_all
  · intro cells hcells
    have hlength := length_lt_of_value h
    have hencode := Cells.encode_of_decode hcells
    refine ⟨hencode, ?_⟩
    intro index
    have hwhole := @Cells.whole_encode_append cells [] (by simp)
    rw [List.append_nil, hencode] at hwhole
    rw [Cells.get?_eq (by omega), hwhole]

theorem readsExactly_text (h : tree.value node name = .ok (some raw)) :
    ReadsExactly (tree.text node name) raw
      (Bytes.isText raw = true ∧ raw.getLast? = some 0 ∧ raw.count 0 = 1)
      fun text => raw = text ++ [0] :=
  readsExactly_valueAs h StringList.exists_text_iff.symm fun _ htext =>
    (StringList.text_eq_ok_iff.1 htext).1

/-! ## Written values -/

namespace Stores

variable {doc : Document} {i : Nat} {ref : NodeRef} {value : Bytes}

theorem value_of_setValue (hdoc : tree.Stores doc) (hsize : tree.totalSize < 2 ^ 32)
    (href : tree.nodes[i]? = some ref) (hname : 0 ∉ name) {tree' : Tree}
    (hset : setValue ref name value tree = .ok () tree') :
    tree'.value ref name = .ok (some value) := by
  obtain ⟨_, _, _, _, _, hat⟩ := hdoc.exists_storedAt href
  have hfree : tree.setCost ref name value ≤ tree.free := by
    by_contra hlacks
    rw [hat.setValue_of_lt (Nat.lt_of_not_le hlacks)] at hset
    cases hset
  have hcost := hat.propertyCost_le hfree
  have hvalue := Bytes.le_alignUp value.length
  have hoffset := tree.nameOffset_le name
  rw [propertyCost] at hcost
  obtain ⟨tree'', hok, hupdated⟩ := hat.setValue_of_le hname (by omega)
    (by simp only [totalSize, usedSize] at hsize; omega) hfree
  rw [hset, EStateM.Result.ok.injEq] at hok
  obtain ⟨-, rfl⟩ := hok
  exact hupdated.value_eq hdoc href

theorem valueAs_of_setValue {α : Type} {decode : Bytes → Except ValueError α} {a : α}
    (hdoc : tree.Stores doc) (hsize : tree.totalSize < 2 ^ 32) (href : tree.nodes[i]? = some ref)
    (hname : 0 ∉ name) {tree' : Tree} (hset : setValue ref name value tree = .ok () tree')
    (hdecode : decode value = .ok a) : tree'.valueAs decode ref name = .ok (some a) :=
  valueAs_eq_some_iff.2 ⟨value, hdoc.value_of_setValue hsize href hname hset, hdecode⟩

/-- **Values of a type.** What is written as a cell, a double cell, cells or a string is read back
as what was written. Of the values that are stored, single cells are exactly those of four bytes,
lists of cells exactly those of a multiple of four, and strings exactly the text whose last byte is
its only zero byte; each is read as what it encodes, and of every other value the length is
reported. -/
theorem reads_written (hsize : tree.totalSize < 2 ^ 32) (hdoc : tree.Stores doc)
    (href : tree.nodes[i]? = some ref) (hname : 0 ∉ name) :
    (∀ cell tree', setCell ref name cell tree = .ok () tree' →
      tree'.cell ref name = .ok (some cell)) ∧
    (∀ cell tree', setDoubleCell ref name cell tree = .ok () tree' →
      tree'.value ref name = .ok (some (Bytes.bigEndian 8 cell.toNat))) ∧
    (∀ cells tree', setCells ref name cells tree = .ok () tree' →
      tree'.cells ref name = .ok (some cells)) ∧
    (∀ text tree', 0 ∉ Bytes.ofText text →
      setText ref name (Bytes.ofText text) tree = .ok () tree' →
      tree'.text ref name = .ok (some (Bytes.ofText text))) ∧
    ∀ other raw, tree.value ref other = .ok (some raw) →
      ReadsExactly (tree.cell ref other) raw (raw.length = 4)
        (fun cell => raw = Bytes.bigEndian 4 cell.toNat) ∧
      ReadsExactly (tree.cells ref other) raw (raw.length % 4 = 0)
        (fun cells => Cells.encode cells = raw ∧ ∀ index, Cells.get? raw index = cells[index]?) ∧
      ReadsExactly (tree.text ref other) raw
        (Bytes.isText raw = true ∧ raw.getLast? = some 0 ∧ raw.count 0 = 1)
        (fun text => raw = text ++ [0]) := by
  refine ⟨?_, ?_, ?_, ?_, ?_⟩
  · intro cell tree' hset
    exact hdoc.valueAs_of_setValue hsize href hname hset (singleCell_word cell)
  · intro cell tree' hset
    rw [← Bytes.doubleWord_eq_bigEndian]
    exact hdoc.value_of_setValue hsize href hname hset
  · intro cells tree' hset
    exact hdoc.valueAs_of_setValue hsize href hname hset (Cells.decode_encode cells)
  · intro text tree' hzero hset
    have htext := StringList.text_eq_ok_iff.2 ⟨rfl, hzero, Bytes.isText_ofText text⟩
    exact hdoc.valueAs_of_setValue hsize href hname hset htext
  · intro other raw hvalue
    exact ⟨readsExactly_cell hvalue, readsExactly_cells hvalue, readsExactly_text hvalue⟩

end Stores

/-- The tree after a value was put behind the other properties of the root. -/
def sharedTailWith (value : Bytes) (free : Nat) : Tree :=
  { sharedTail with
    structBlock := ([.beginNode [], .property 0 [1], .nop, .property 10 value,
      .beginNode (Bytes.ofText "dma"), .property 16 [0, 0, 0, 1], .endNode, .endNode,
      .finish] : List Token).flatMap Token.encode
    free := free }

/-- Values of every type are read back, and what is a cell is no string. -/
theorem reads_written_sharedTail :
    (∃ tree', setCell ⟨0⟩ (Bytes.ofText "names") 0xa0b sharedTail = .ok () tree' ∧
      tree'.cell ⟨0⟩ (Bytes.ofText "names") = .ok (some 0xa0b)) ∧
    (∃ tree', setDoubleCell ⟨0⟩ (Bytes.ofText "names") 0xa0b sharedTail = .ok () tree' ∧
      tree'.value ⟨0⟩ (Bytes.ofText "names") =
        .ok (some (Bytes.bigEndian 8 (0xa0b : UInt64).toNat))) ∧
    (∃ tree', setCells ⟨0⟩ (Bytes.ofText "names") [1, 2, 3] sharedTail = .ok () tree' ∧
      tree'.cells ⟨0⟩ (Bytes.ofText "names") = .ok (some [1, 2, 3])) ∧
    (∃ tree', setText ⟨0⟩ (Bytes.ofText "names") (Bytes.ofText "tx") sharedTail = .ok () tree' ∧
      tree'.text ⟨0⟩ (Bytes.ofText "names") = .ok (some (Bytes.ofText "tx"))) ∧
    (∃ cell, sharedTail.cell ⟨28⟩ (Bytes.ofText "reg") = .ok (some cell) ∧
      [0, 0, 0, 1] = Bytes.bigEndian 4 cell.toNat) ∧
    sharedTail.text ⟨28⟩ (Bytes.ofText "reg") = .error (.badValue 4) := by
  have hnodes : sharedTail.nodes = [⟨0⟩, ⟨28⟩] := by cbv
  have hsize : sharedTail.totalSize < 2 ^ 32 := by cbv
  have hroot : sharedTail.nodes[0]? = some ⟨0⟩ := by rw [hnodes]; rfl
  have hdma : sharedTail.nodes[1]? = some ⟨28⟩ := by rw [hnodes]; rfl
  have hname : 0 ∉ Bytes.ofText "names" := by decide +kernel
  have hcell : setCell ⟨0⟩ (Bytes.ofText "names") 0xa0b sharedTail =
      .ok () (sharedTailWith [0, 0, 10, 11] 24) := by cbv
  have hdouble : setDoubleCell ⟨0⟩ (Bytes.ofText "names") 0xa0b sharedTail =
      .ok () (sharedTailWith [0, 0, 0, 0, 0, 0, 10, 11] 20) := by cbv
  have hcells : setCells ⟨0⟩ (Bytes.ofText "names") [1, 2, 3] sharedTail =
      .ok () (sharedTailWith [0, 0, 0, 1, 0, 0, 0, 2, 0, 0, 0, 3] 16) := by cbv
  have htext : setText ⟨0⟩ (Bytes.ofText "names") (Bytes.ofText "tx") sharedTail =
      .ok () (sharedTailWith [116, 120, 0] 24) := by cbv
  have hreg : sharedTail.value ⟨28⟩ (Bytes.ofText "reg") = .ok (some [0, 0, 0, 1]) := by cbv
  obtain ⟨hcellRead, hdoubleRead, hcellsRead, htextRead, -⟩ :=
    Stores.reads_written hsize sharedTail_stores hroot hname
  obtain ⟨-, -, -, -, hread⟩ := Stores.reads_written hsize sharedTail_stores hdma hname
  obtain ⟨hregCell, -, hregText⟩ := hread _ _ hreg
  exact ⟨⟨_, hcell, hcellRead _ _ hcell⟩, ⟨_, hdouble, hdoubleRead _ _ hdouble⟩,
    ⟨_, hcells, hcellsRead _ _ hcells⟩,
    ⟨_, htext, htextRead _ _ (by decide +kernel) htext⟩, hregCell.accepted rfl,
    hregText.refused (by decide +kernel)⟩

end Tree

end BootTree
