import BootTree.Proofs.Document.Answers

/-!
# BootTree.Proofs.Document.Kept

What has become of the nodes of a document after properties were changed and empty nodes were added.
A node that is added takes a number, and the nodes behind it move by one; every old node is found
again, in the old order, with its name and below its parent.

* `Document.IsParent`: one node is directly below another.
* `Kept`: the old nodes among the new ones, with a relation between their properties.
* `Kept.ofOutline`, `Kept.trans`: other properties only, and one change after another.
* `Document.withChild`, `Document.kept_withChild`: one more node.
* `Document.find?_of_withChild`: what a path leads to when the root has one more child.
-/

namespace BootTree

namespace Document

variable {doc before after : Document} {i j : Nat}

/-- A node directly below another one. -/
structure IsParent (doc : Document) (i j : Nat) : Prop where
  inside : doc.Inside i j
  depth : doc.depth? j = (doc.depth? i).map (· + 1)

theorem Inside.lt_size (h : doc.Inside i j) : j < doc.forest.size := by
  obtain ⟨node, hnode, -, hle⟩ := h
  exact Nat.lt_of_le_of_lt hle (Forest.add_size_lt hnode)

/-- A node stays directly below another one if nodes keep their order, their names and their depths,
and what comes between the two is deeper than the outer one. -/
theorem IsParent.map {place : Nat → Nat} (h : before.IsParent i j)
    (hordered : ∀ i j, i < j → place i < place j)
    (hentry : ∀ i < before.forest.size, after.outline[place i]? = before.outline[i]?)
    (hbetween : ∀ m, place i < m → m ≤ place j → (∃ k, i < k ∧ k ≤ j ∧ place k = m) ∨
      ∀ depth, before.depth? i = some depth → ∀ inner, after.depth? m = some inner → depth < inner) :
    after.IsParent (place i) (place j) := by
  have hdepth {k : Nat} (hk : k < before.forest.size) :
      after.depth? (place k) = before.depth? k := by
    rw [depth?, depth?, hentry k hk]
  obtain ⟨⟨node, hnode, hlt, hle⟩, hbelow⟩ := h
  have hj : j < before.forest.size := Nat.lt_of_le_of_lt hle (Forest.add_size_lt hnode)
  have hi := Nat.lt_trans hlt hj
  obtain ⟨depth, houter⟩ := Option.isSome_iff_exists.1 (depth?_isSome_iff.2 hi)
  have hplaced : place j < after.forest.size := by
    rw [← depth?_isSome_iff, hdepth hj, depth?_isSome_iff]
    exact hj
  have houter' : after.depth? (place i) = some depth := by rw [hdepth hi, houter]
  refine ⟨inside_of_deeper houter' (hordered i j hlt) hplaced ?_, ?_⟩
  · intro m hm hmj inner hinner
    rcases hbetween m hm hmj with ⟨k, hik, hkj, rfl⟩ | hdeeper
    · have hinside : before.Inside i k := ⟨node, hnode, hik, Nat.le_trans hkj hle⟩
      rw [hdepth (Nat.lt_of_le_of_lt hkj hj)] at hinner
      exact hinside.depth_lt houter hinner
    · exact hdeeper depth houter inner hinner
  · rw [hdepth hj, hdepth hi, hbelow]

end Document

/-- Every node of a document is still there, at a place that keeps the order, with its name, its depth
and its parent, and its properties are in relation to those it had. -/
structure Kept (rel : Nat → List Property → List Property → Prop) (before after : Document)
    (place : Nat → Nat) : Prop where
  ordered : ∀ i j, i < j → place i < place j
  entry : ∀ i < before.forest.size, after.outline[place i]? = before.outline[i]?
  parent : ∀ i j, before.IsParent i j → after.IsParent (place i) (place j)
  properties : ∀ i < before.forest.size,
    rel i (before.propertiesAt i) (after.propertiesAt (place i))

namespace Kept

variable {rel rel₁ rel₂ : Nat → List Property → List Property → Prop}
  {doc before after last : Document} {place place' : Nat → Nat}

theorem lt_size (h : Kept rel before after place) {i : Nat} (hi : i < before.forest.size) :
    place i < after.forest.size := by
  rw [← Document.depth?_isSome_iff, Document.depth?, h.entry i hi, ← Document.depth?,
    Document.depth?_isSome_iff]
  exact hi

theorem ofOutline (houtline : after.outline = before.outline)
    (hrel : ∀ i < before.forest.size, rel i (before.propertiesAt i) (after.propertiesAt i)) :
    Kept rel before after id := by
  have hentry : ∀ i < before.forest.size, after.outline[id i]? = before.outline[i]? := by
    intro i _
    rw [houtline]
    rfl
  refine ⟨fun _ _ hlt => hlt, hentry, ?_, hrel⟩
  intro i j hparent
  apply hparent.map (fun _ _ hlt => hlt) hentry
  intro m hm hmj
  exact .inl ⟨m, hm, hmj, rfl⟩

theorem refl (doc : Document) (hrel : ∀ i properties, rel i properties properties) :
    Kept rel doc doc id := .ofOutline rfl fun i _ => hrel i _

theorem trans (h : Kept rel before after place) (h' : Kept rel₁ after last place')
    (hrel : ∀ i a b c, rel i a b → rel₁ (place i) b c → rel₂ i a c) :
    Kept rel₂ before last fun i => place' (place i) := by
  refine ⟨?_, ?_, ?_, ?_⟩
  · intro i j hlt
    exact h'.ordered _ _ (h.ordered i j hlt)
  · intro i hi
    rw [h'.entry _ (h.lt_size hi), h.entry i hi]
  · intro i j hparent
    exact h'.parent _ _ (h.parent i j hparent)
  · intro i hi
    exact hrel i _ _ _ (h.properties i hi) (h'.properties _ (h.lt_size hi))

end Kept

/-! ## One more node -/

/-- Where a node is after another one was given a first child. -/
def placeBeside (parent i : Nat) : Nat := if i ≤ parent then i else i + 1

theorem placeBeside_of_le {parent i : Nat} (h : i ≤ parent) : placeBeside parent i = i := if_pos h

theorem placeBeside_of_lt {parent i : Nat} (h : parent < i) : placeBeside parent i = i + 1 :=
  if_neg (Nat.not_le.2 h)

theorem placeBeside_succ (parent i : Nat) :
    placeBeside (parent + 1) (i + 1) = placeBeside parent i + 1 := by
  unfold placeBeside
  split <;> split <;> omega

theorem placeBeside_ne (parent i : Nat) : placeBeside parent i ≠ parent + 1 := by
  unfold placeBeside
  split <;> omega

theorem strictMono_placeBeside (parent : Nat) : StrictMono (placeBeside parent) := by
  intro i j h
  unfold placeBeside
  split <;> split <;> omega

/-- Every number but the new node's is an old node's. -/
theorem exists_placeBeside {parent m : Nat} (h : m ≠ parent + 1) : ∃ i, placeBeside parent i = m := by
  rcases Nat.lt_or_gt_of_ne h with hlt | hgt
  · exact ⟨m, placeBeside_of_le (Nat.le_of_lt_succ hlt)⟩
  · refine ⟨m - 1, ?_⟩
    rw [placeBeside_of_lt (by omega)]
    omega

namespace Forest

/-- The same nodes, one of them with an empty first child. -/
def withChild (f : Forest) (parent : Nat) (name : Bytes) : Forest :=
  f.alter id (.node name [] .nil) parent

variable {f : Forest} {parent : Nat}

theorem size_withChild (name : Bytes) (h : parent < f.size) :
    (f.withChild parent name).size = f.size + 1 := by
  induction f generalizing parent with
  | nil => cases h
  | node _ _ children next ihc ihn =>
    cases parent with
    | zero => simp only [withChild, alter, size]; omega
    | succ parent =>
      unfold withChild at ihc ihn ⊢
      rw [size] at h
      rw [alter]
      split
      · rename_i hlt
        rw [size, size, ihc hlt]
        omega
      · rw [size, size, ihn (by omega)]
        omega

theorem outline_withChild {entry : Bytes × Nat} {d : Nat} (name : Bytes)
    (h : (f.outline d)[parent]? = some entry) :
    (f.withChild parent name).outline d =
      (f.outline d).take (parent + 1) ++ (name, entry.2 + 1) :: (f.outline d).drop (parent + 1) := by
  induction f generalizing parent d with
  | nil => cases h
  | node own _ children next ihc ihn =>
    cases parent with
    | zero =>
      cases h
      simp [withChild, alter, outline]
    | succ parent =>
      unfold withChild at ihc ihn ⊢
      rw [outline, List.getElem?_cons_succ] at h
      rw [alter]
      split
      · rename_i hlt
        have hlength : parent < (children.outline (d + 1)).length := by rwa [length_outline]
        rw [List.getElem?_append_left hlength] at h
        rw [outline, outline, ihc h, List.take_succ_cons, List.drop_succ_cons,
          List.take_append_of_le_length hlength, List.drop_append_of_le_length hlength]
        simp
      · rename_i hle
        have hlength : (children.outline (d + 1)).length ≤ parent := by rw [length_outline]; omega
        rw [List.getElem?_append_right hlength] at h
        rw [length_outline] at h hlength
        have hrest : parent + 1 - children.size = parent - children.size + 1 := by omega
        have htake : (children.outline (d + 1)).take (parent + 1) = children.outline (d + 1) :=
          List.take_of_length_le (by rw [length_outline]; omega)
        have hdrop : (children.outline (d + 1)).drop (parent + 1) = [] :=
          List.drop_eq_nil_of_le (by rw [length_outline]; omega)
        rw [outline, outline, ihn h, List.take_succ_cons, List.drop_succ_cons, List.take_append,
          List.drop_append, htake, hdrop, length_outline, hrest]
        simp

theorem properties_withChild (name : Bytes) (h : parent < f.size) (i : Nat) :
    ((f.withChild parent name).node? (placeBeside parent i)).map Node.properties =
      (f.node? i).map Node.properties := by
  induction f generalizing parent i with
  | nil => cases h
  | node _ _ children next ihc ihn =>
    cases parent with
    | zero =>
      cases i with
      | zero => rfl
      | succ i =>
        rw [placeBeside_of_lt (Nat.succ_pos i)]
        simp only [withChild, alter, node?, size, Nat.zero_add, Nat.not_lt_zero, if_false, Nat.sub_zero]
        by_cases hi : i < children.size
        · rw [if_pos (by omega), if_pos hi]
        · rw [if_neg (by omega), if_neg hi, Nat.add_sub_add_right]
    | succ parent =>
      rw [size] at h
      cases i with
      | zero =>
        rw [placeBeside_of_le (Nat.zero_le _), withChild, alter]
        split <;> rfl
      | succ i =>
        rw [placeBeside_succ, withChild, alter]
        by_cases hparent : parent < children.size
        · have hsize := size_withChild name hparent
          rw [if_pos hparent, ← withChild, node?, node?, hsize]
          by_cases hi : i < children.size
          · have hplaced : placeBeside parent i < children.size + 1 := by
              unfold placeBeside
              split <;> omega
            rw [if_pos hplaced, if_pos hi, ihc hparent]
          · rw [placeBeside_of_lt (by omega), if_neg (by omega), if_neg hi, Nat.add_sub_add_right]
        · rw [if_neg hparent, ← withChild, node?, node?]
          by_cases hi : i < children.size
          · rw [placeBeside_of_le (by omega), if_pos hi, if_pos hi]
          · have hplaced : ¬ placeBeside parent i < children.size := by
              unfold placeBeside
              split <;> omega
            have hrest : placeBeside parent i - children.size =
                placeBeside (parent - children.size) (i - children.size) := by
              unfold placeBeside
              split <;> split <;> omega
            rw [if_neg hplaced, if_neg hi, hrest, ihn (by omega)]

theorem descend_start (start : Nat) (f : Forest) (path : List Bytes) :
    f.descend start path = (f.descend 0 path).map (start + ·) := by
  induction path generalizing start f with
  | nil => simp [descend]
  | cons component rest ih =>
    rw [descend, descend]
    cases f.child? component with
    | none => rfl
    | some found =>
      dsimp only
      rw [ih, ih (0 + 1 + found.1), Option.map_map]
      congr 1
      funext i
      simp only [Function.comp_apply]
      omega

end Forest

namespace Document

variable {doc : Document} {parent : Nat}

/-- The document with an empty first child for one of its nodes. -/
def withChild (doc : Document) (parent : Nat) (name : Bytes) : Document :=
  doc.alter id (.node name [] .nil) parent

theorem forest_withChild (name : Bytes) (h : parent < doc.forest.size) :
    (doc.withChild parent name).forest = doc.forest.withChild parent name :=
  forest_alter _ _ doc parent h

theorem propertiesAt_withChild (name : Bytes) (h : parent < doc.forest.size) (i : Nat) :
    (doc.withChild parent name).propertiesAt (placeBeside parent i) = doc.propertiesAt i := by
  rw [propertiesAt, propertiesAt, properties?, properties?, node?, node?, forest_withChild name h,
    Forest.properties_withChild name h]

theorem outline_withChild (name : Bytes) {depth : Nat} (h : doc.depth? parent = some depth) :
    (doc.withChild parent name).outline =
      doc.outline.take (parent + 1) ++ (name, depth + 1) :: doc.outline.drop (parent + 1) := by
  have hparent : parent < doc.forest.size := by
    rw [← depth?_isSome_iff, h]
    rfl
  obtain ⟨own, hown, rfl⟩ := Option.map_eq_some_iff.1 h
  rw [outline_eq, forest_withChild name hparent, outline_eq]
  rw [outline_eq] at hown
  exact Forest.outline_withChild name hown

/-- The nodes in front of the new one. -/
theorem length_outline_take (h : parent < doc.forest.size) :
    (doc.outline.take (parent + 1)).length = parent + 1 := by
  rw [List.length_take, outline_eq, Forest.length_outline]
  omega

theorem depth?_newChild (name : Bytes) {depth : Nat} (h : doc.depth? parent = some depth) :
    (doc.withChild parent name).depth? (parent + 1) = some (depth + 1) := by
  have hparent : parent < doc.forest.size := by
    rw [← depth?_isSome_iff, h]
    rfl
  have hfront := length_outline_take hparent
  rw [depth?, outline_withChild name h, List.getElem?_append_right (by omega), hfront, Nat.sub_self]
  rfl

theorem outline_placeBeside (name : Bytes) (h : parent < doc.forest.size) (i : Nat) :
    (doc.withChild parent name).outline[placeBeside parent i]? = doc.outline[i]? := by
  obtain ⟨depth, hdepth⟩ := Option.isSome_iff_exists.1 (depth?_isSome_iff.2 h)
  have hfront := length_outline_take h
  rw [outline_withChild name hdepth]
  by_cases hi : i ≤ parent
  · rw [placeBeside_of_le hi, List.getElem?_append_left (by omega),
      List.getElem?_take_of_lt (by omega)]
  · rw [placeBeside_of_lt (by omega), List.getElem?_append_right (by omega), hfront,
      show i + 1 - (parent + 1) = i - (parent + 1) + 1 by omega, List.getElem?_cons_succ,
      List.getElem?_drop]
    congr 1
    omega

/-- All old nodes are kept, and so are their properties. -/
theorem kept_withChild (name : Bytes) (h : parent < doc.forest.size) :
    Kept (fun _ before after => after = before) doc (doc.withChild parent name)
      (placeBeside parent) := by
  have hentry : ∀ i < doc.forest.size,
      (doc.withChild parent name).outline[placeBeside parent i]? = doc.outline[i]? :=
    fun i _ => outline_placeBeside name h i
  obtain ⟨depth, hdepth⟩ := Option.isSome_iff_exists.1 (depth?_isSome_iff.2 h)
  have hmono := strictMono_placeBeside parent
  refine ⟨fun _ _ hlt => hmono hlt, hentry, ?_, fun i _ => propertiesAt_withChild name h i⟩
  intro i j hparent
  apply hparent.map (fun _ _ hlt => hmono hlt) hentry
  intro m hm hmj
  obtain ⟨node, hnode, hij, hle⟩ := hparent.inside
  by_cases hnew : m = parent + 1
  · right
    intro outer houter inner hinner
    rw [hnew, depth?_newChild name hdepth, Option.some.injEq] at hinner
    have hi : i ≤ parent := by
      unfold placeBeside at hm
      split at hm <;> omega
    have hj : parent < j := by
      unfold placeBeside at hmj
      split at hmj <;> omega
    -- the new node is below the outer one, or below a node inside that
    rcases Nat.lt_or_eq_of_le hi with hlt | rfl
    · have hinside : doc.Inside i parent := ⟨node, hnode, hlt, by omega⟩
      have := hinside.depth_lt houter hdepth
      omega
    · rw [houter, Option.some.injEq] at hdepth
      omega
  · obtain ⟨k, rfl⟩ := exists_placeBeside hnew
    exact .inl ⟨k, hmono.lt_iff_lt.1 hm, hmono.le_iff_le.1 hmj, rfl⟩

/-- When the root has one more child, a path that leads to an old node led there before. -/
theorem find?_of_withChild {name path : Bytes} {i : Nat}
    (h : (doc.withChild 0 name).find? path = some (placeBeside 0 i)) : doc.find? path = some i := by
  rw [find?] at h ⊢
  by_cases hslash : path.head? = some slash
  · rw [if_pos hslash] at h ⊢
    change (Forest.node name [] .nil doc.children).descend 0 (Tree.components path) = _ at h
    cases hpath : Tree.components path with
    | nil =>
      rw [hpath, Forest.descend, Option.some.injEq] at h
      rw [Forest.descend]
      unfold placeBeside at h
      split at h
      · rw [h]
      · omega
    | cons component rest =>
      rw [hpath, Forest.descend, Forest.child?] at h
      rw [Forest.descend]
      by_cases hmatch : nameMatches name component = true
      · -- the new child hides what had that name; it is empty, so no path leads through it
        rw [if_pos hmatch] at h
        dsimp only at h
        cases rest with
        | nil =>
          rw [Forest.descend, Option.some.injEq] at h
          exact absurd h.symm (placeBeside_ne 0 i)
        | cons _ _ => cases h
      · rw [if_neg hmatch] at h
        cases hchild : doc.children.child? component with
        | none => rw [hchild] at h; cases h
        | some found =>
          rw [hchild, Option.map_some] at h
          dsimp only at h ⊢
          rw [Forest.descend_start] at h ⊢
          obtain ⟨k, hk, hplaced⟩ := Option.map_eq_some_iff.1 h
          rw [hk, Option.map_some, Option.some.injEq]
          simp only [Forest.size] at hplaced
          unfold placeBeside at hplaced
          split at hplaced <;> omega
  · rw [if_neg hslash] at h
    cases h

end Document

end BootTree
