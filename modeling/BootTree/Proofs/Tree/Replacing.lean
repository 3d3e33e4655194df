import BootTree.Proofs.Image.Moving
import BootTree.Proofs.Tree.Behind

/-!
# BootTree.Proofs.Tree.Replacing

Replacing a value by one that is not longer, in blocks of any bytes. Such an edit finds its space in
the token that it replaces, so it succeeds however little free space there is, and the tree keeps its
size. What a search for another property passes over or finds is still there.

* `Tree.propertyFrom_splice`: the properties of a node with one of them replaced.
* `Tree.setValue_of_length_le`: the edit, and what is read from the node afterwards.
-/

namespace BootTree

open Blob

namespace Tree

variable {strings name other bytes new : Bytes} {o : Nat}

/-! ## Searches among properties -/

/-- A search for a property finds the same value wherever the bytes stand. -/
theorem propertyFrom_moved {found : Located} (h : propertyFrom strings name o bytes = .ok (some found))
    (o' : Nat) : ∃ moved, propertyFrom strings name o' bytes = .ok (some moved) ∧
      moved.value = found.value := by
  fun_induction propertyFrom strings name o bytes generalizing o' with
  | case1 | case2 | case6 => cases h
  | case3 o bytes nameOffset value hread hname =>
    cases h
    rw [propertyFrom_property hread hname, if_pos rfl]
    exact ⟨_, rfl, rfl⟩
  | case4 o bytes nameOffset value hread passed hname hne size ih =>
    rw [propertyFrom_property hread hname, if_neg hne]
    exact ih h _
  | case5 o bytes hread ih =>
    rw [propertyFrom_nop hread]
    exact ih h _

/-- Bytes among which a search has found a property, with another value for it. -/
def replaced (bytes : Bytes) (o : Nat) (found : Located) (value : Bytes) : Bytes :=
  Bytes.splice bytes (found.offset - o) found.token.size
    (Token.property found.nameOffset value).encode

/-- A token in front of the property is still there, and what stands behind it is changed in the same
way. -/
theorem replaced_behind {t : Token} {found : Located} (hread : Token.read? bytes = some t)
    (h : propertyFrom strings name (o + t.size) (bytes.drop t.size) = .ok (some found))
    (value : Bytes) :
    Token.read? (replaced bytes o found value) = some t ∧
      (replaced bytes o found value).drop t.size =
        replaced (bytes.drop t.size) (o + t.size) found value := by
  obtain ⟨hle, hfound⟩ := read?_of_propertyFrom h
  have hsize := Token.size_le_of_read? hfound
  have hfour := found.token.four_le_size
  rw [List.length_drop, List.length_drop] at hsize
  have hplace : t.size ≤ found.offset - o := by omega
  refine ⟨Token.read?_splice hread hplace, ?_⟩
  rw [replaced, replaced, Bytes.drop_splice hplace (by omega), Nat.sub_sub]

/-- With another value for the property that a search finds, the same search finds that value, and
searches for other properties find what they found. -/
theorem propertyFrom_replaced {found : Located} {value : Bytes}
    (h : propertyFrom strings name o bytes = .ok (some found)) (hvalue : value.length < 2 ^ 32) :
    propertyFrom strings name o (replaced bytes o found value) =
        .ok (some { found with value }) ∧
      ∀ other p, other ≠ name → propertyFrom strings other o bytes = .ok (some p) →
        ∃ kept, propertyFrom strings other o (replaced bytes o found value) = .ok (some kept) ∧
          kept.value = p.value := by
  fun_induction propertyFrom strings name o bytes with
  | case1 | case2 | case6 => cases h
  | case3 o bytes nameOffset old hread hname =>
    cases h
    have hnew : replaced bytes o ⟨o, nameOffset, old⟩ value =
        (Token.property nameOffset value).encode ++ bytes.drop (Token.property nameOffset old).size := by
      simp [replaced, Bytes.splice, Located.token]
    have hread' := @Token.read?_encode_append (.property nameOffset value) hvalue
      (bytes.drop (Token.property nameOffset old).size)
    rw [hnew, propertyFrom_property hread' hname, if_pos rfl]
    refine ⟨rfl, ?_⟩
    intro other p hne hfound
    rw [propertyFrom_property hread hname, if_neg (Ne.symm hne)] at hfound
    rw [propertyFrom_property hread' hname, if_neg (Ne.symm hne), ← Token.length_encode,
      List.drop_left]
    exact propertyFrom_moved hfound _
  | case4 o bytes nameOffset passedValue hread passed hname hne size ih =>
    obtain ⟨hread', hdrop⟩ := replaced_behind hread h value
    obtain ⟨hsame, hothers⟩ := ih h
    refine ⟨?_, ?_⟩
    · rw [propertyFrom_property hread' hname, if_neg hne, hdrop]
      exact hsame
    · intro other p hother hp
      rw [propertyFrom_property hread hname] at hp
      rw [propertyFrom_property hread' hname, hdrop]
      by_cases hhere : passed = other
      · rw [if_pos hhere] at hp ⊢
        cases hp
        exact ⟨_, rfl, rfl⟩
      · rw [if_neg hhere] at hp ⊢
        exact hothers other p hother hp
  | case5 o bytes hread ih =>
    obtain ⟨hread', hdrop⟩ := replaced_behind hread h value
    obtain ⟨hsame, hothers⟩ := ih h
    refine ⟨?_, ?_⟩
    · rw [propertyFrom_nop hread', hdrop]
      exact hsame
    · intro other p hother hp
      rw [propertyFrom_nop hread] at hp
      rw [propertyFrom_nop hread', hdrop]
      exact hothers other p hother hp

/-! ## The edit -/

variable {tree : Tree} {node : NodeRef} {found : Located} {value : Bytes}

/-- The tree with another value for a property that was found. -/
def withReplaced (tree : Tree) (found : Located) (value : Bytes) : Tree :=
  tree.spliced found.offset found.token.size (Token.property found.nameOffset value).encode

theorem property?_of_enter {entered : Bytes} (henter : tree.enter node = .ok (entered, o))
    (name : Bytes) : tree.property? node name =
      propertyFrom tree.strings name o (tree.structBlock.drop o) := by
  rw [property?, henter]

theorem property?_withReplaced (h : tree.property? node name = .ok (some found))
    (hvalue : value.length < 2 ^ 32) :
    (tree.withReplaced found value).property? node name = .ok (some { found with value }) ∧
      ∀ other p, other ≠ name → tree.property? node other = .ok (some p) →
        ∃ kept, (tree.withReplaced found value).property? node other = .ok (some kept) ∧
          kept.value = p.value := by
  have hin := le_of_property? h
  cases henter : tree.enter node with
  | error e =>
    rw [property?, henter] at h
    cases h
  | ok entered =>
    obtain ⟨entered, o⟩ := entered
    simp only [property?_of_enter henter] at h ⊢
    have hle := (read?_of_propertyFrom h).1
    have henter' : (tree.withReplaced found value).enter node = .ok (entered, o) :=
      enter_splice henter hle (by omega) rfl
    have hblock : (tree.withReplaced found value).structBlock.drop o =
        replaced (tree.structBlock.drop o) o found value :=
      Bytes.drop_splice hle (by omega)
    simp only [property?_of_enter henter', hblock]
    exact propertyFrom_replaced h hvalue

/-- **A value that is not longer.** It always takes the place of the old one, the tree keeps its
size, and the other properties of the node keep their values. -/
theorem setValue_of_length_le {old : Bytes} (hold : tree.value node name = .ok (some old))
    (hle : value.length ≤ old.length) :
    ∃ after, setValue node name value tree = .ok () after ∧ after.totalSize = tree.totalSize ∧
      after.value node name = .ok (some value) ∧
      ∀ other v, other ≠ name → tree.value node other = .ok (some v) →
        after.value node other = .ok (some v) := by
  obtain ⟨found, hfound, rfl⟩ := value_eq_some_iff.1 hold
  have hstorable : found.value.length < 2 ^ 32 := Token.isStorable_of_read? (read?_of_property? hfound)
  have hroom : (Token.property found.nameOffset value).encode.length ≤
      found.token.size + tree.free := by
    rw [length_property_encode, propertyCost, found.size_token]
    simp only [Bytes.alignUp]
    omega
  obtain ⟨hsame, hothers⟩ := property?_withReplaced hfound (show value.length < 2 ^ 32 by omega)
  refine ⟨tree.withReplaced found value, ?_, totalSize_spliced (le_of_property? hfound) hroom,
    value_eq_some_iff.2 ⟨_, hsame, rfl⟩, ?_⟩
  · rw [setValue_eq, hfound]
    dsimp only
    rw [spliceStruct_eq, if_neg (Nat.not_lt.2 hroom)]
    rfl
  · intro other v hne hv
    obtain ⟨p, hp, rfl⟩ := value_eq_some_iff.1 hv
    obtain ⟨kept, hkept, heq⟩ := hothers other p hne hp
    exact value_eq_some_iff.2 ⟨kept, hkept, heq⟩

end Tree

end BootTree
