import Mathlib.Data.List.Chain
import BootTree.Proofs.Document.Written
import BootTree.Proofs.Tree.Iteration
import BootTree.Proofs.Tree.Paths

/-!
# BootTree.Proofs.Document.Children

Where paths lead. A component of a path means a node by its full name, or by the part of the name in
front of the unit address; so it can mean several children of a node, and the first of them is
taken.

* `Means`: the names that a component means.
* `Document.FirstChild`: the child that a component leads to; `Document.firstChild_iff`.
* `Document.LeadsAlong`, `Document.BreaksOff`: where the components of a path lead, or that one of
  them leads nowhere.
* `Document.Lineage`, `pathOf`: the nodes on the way to a node, and the path of their full names.
* `Document.IsPlain`, `Document.Unhidden`: documents and children for which this path leads back to
  the node.
* `Tree.Stores.resolves`: following paths in a stored tree.
-/

namespace BootTree

/-! ## Names -/

/-- The part of a name in front of its unit address. -/
def baseName (name : Bytes) : Bytes := name.takeWhile (· ≠ atSign)

/-- A component of a path means a node of this name: it is the name, or it has no unit address and
is the part in front of one. -/
def Means (name component : Bytes) : Prop :=
  name = component ∨ atSign ∉ component ∧ baseName name = component

instance (name component : Bytes) : Decidable (Means name component) :=
  inferInstanceAs (Decidable (_ ∨ _))

theorem baseName_of_notMem {name : Bytes} (h : atSign ∉ name) : baseName name = name := by
  rw [baseName, List.takeWhile_eq_self_iff]
  intro b hb
  simpa using ne_of_mem_of_not_mem hb h

theorem nameMatches_eq (name component : Bytes) :
    nameMatches name component = decide (Means name component) := by
  rw [nameMatches, Bool.eq_iff_iff, decide_eq_true_iff, Means, baseName]
  by_cases hunit : atSign ∈ name
  · simp [hunit]
  · have hbase := baseName_of_notMem hunit
    rw [baseName] at hbase
    rw [hbase]
    simp [hunit]

/-! ## Children -/

/-- A child is searched for among the nodes at the depth of the siblings. -/
theorem Forest.child?_eq_findIdx? (f : Forest) (wanted : Bytes) (d : Nat) :
    (f.child? wanted).map Prod.fst =
      (f.outline d).findIdx? fun entry => decide (entry.2 = d ∧ Means entry.1 wanted) := by
  induction f with
  | nil => rfl
  | node name properties children next _ ihn =>
    have hinside : (children.outline (d + 1)).findIdx?
        (fun entry => decide (entry.2 = d ∧ Means entry.1 wanted)) = none := by
      rw [List.findIdx?_eq_none_iff]
      intro entry hentry
      have := le_of_mem_outline hentry
      rw [decide_eq_false_iff_not]
      omega
    rw [child?, nameMatches_eq, outline, List.findIdx?_cons, List.findIdx?_append, hinside,
      Option.none_or, ← ihn, length_outline]
    by_cases hmeans : Means name wanted
    · simp [hmeans]
    · cases next.child? wanted with
      | none => simp [hmeans]
      | some found =>
        simp only [hmeans, decide_false, Bool.false_eq_true, and_false, if_false, Option.map_some,
          Option.some.injEq]
        omega

namespace Document

section Children

variable (doc : Document)

def nameAt (i : Nat) : Bytes := (doc.outline[i]?.map Prod.fst).getD []

/-- The child of a node that a component of a path leads to: the first one that it means. -/
structure FirstChild (i : Nat) (component : Bytes) (j : Nat) : Prop where
  parent : doc.IsParent i j
  means : Means (doc.nameAt j) component
  first : ∀ k < j, doc.IsParent i k → ¬ Means (doc.nameAt k) component

/-- The components of a path lead from one node to another, each to the first child that it
means. -/
inductive LeadsAlong : Nat → List Bytes → Nat → Prop where
  | here {i : Nat} : LeadsAlong i [] i
  | child {i j target : Nat} {component : Bytes} {rest : List Bytes} :
      doc.FirstChild i component j → LeadsAlong j rest target →
      LeadsAlong i (component :: rest) target

/-- The components of a path lead from a node to one that has no child which the next component
means. -/
inductive BreaksOff : Nat → List Bytes → Prop where
  | here {i : Nat} {component : Bytes} {rest : List Bytes} :
      (∀ j, doc.IsParent i j → ¬ Means (doc.nameAt j) component) → BreaksOff i (component :: rest)
  | child {i j : Nat} {component : Bytes} {rest : List Bytes} :
      doc.FirstChild i component j → BreaksOff j rest → BreaksOff i (component :: rest)

end Children

variable {doc : Document} {i j : Nat} {node : Node}

theorem nameAt_eq (h : doc.node? i = some node) : doc.nameAt i = node.name := by
  obtain ⟨depth, hentry⟩ := Forest.outline_of_node? 0 h
  rw [nameAt, outline_eq, hentry]
  rfl

instance (doc : Document) (i j : Nat) : Decidable (doc.Inside i j) :=
  decidable_of_iff ((doc.node? i).any fun node => i < j ∧ j ≤ i + node.children.size) (by
    simp [Inside, Option.any_eq_true])

instance (doc : Document) (i j : Nat) : Decidable (doc.IsParent i j) :=
  decidable_of_iff (doc.Inside i j ∧ doc.depth? j = (doc.depth? i).map (· + 1))
    ⟨fun h => ⟨h.1, h.2⟩, fun h => ⟨h.inside, h.depth⟩⟩

/-- The entry of a node inside another one, in the outline of what is inside that: it has the name,
and it has the depth of siblings if the node is directly below. -/
theorem isParent_and_means_iff {d k : Nat} (hnode : doc.node? i = some node)
    (hdepth : doc.depth? i = some d) (hk : k < (node.children.outline (d + 1)).length)
    (component : Bytes) :
    doc.IsParent i (i + 1 + k) ∧ Means (doc.nameAt (i + 1 + k)) component ↔
      (node.children.outline (d + 1))[k].2 = d + 1 ∧
        Means (node.children.outline (d + 1))[k].1 component := by
  obtain ⟨own, hown, rfl⟩ := Option.map_eq_some_iff.1 hdepth
  have hinner : k < node.children.size := by rwa [Forest.length_outline] at hk
  have hplace : doc.outline[i + 1 + k]? = some (node.children.outline (own.2 + 1))[k] := by
    rw [outline_eq] at hown ⊢
    rw [Forest.outline_inner hnode hown hinner, List.getElem?_eq_getElem hk]
  have hbelow : doc.depth? (i + 1 + k) = some (node.children.outline (own.2 + 1))[k].2 := by
    rw [depth?, hplace]
    rfl
  have hname : doc.nameAt (i + 1 + k) = (node.children.outline (own.2 + 1))[k].1 := by
    rw [nameAt, hplace]
    rfl
  rw [hname]
  refine and_congr_left fun _ => ⟨fun hparent => ?_, fun hone => ?_⟩
  · have hone := hparent.depth
    rw [hbelow, hdepth, Option.map_some, Option.some.injEq] at hone
    exact hone
  · refine ⟨⟨node, hnode, by omega, by omega⟩, ?_⟩
    rw [hbelow, hdepth, hone]
    rfl

/-- A component leads to the child that is searched for. -/
theorem firstChild_iff {component : Bytes} (hnode : doc.node? i = some node) :
    doc.FirstChild i component j ↔
      ∃ found, node.children.child? component = some found ∧ j = i + 1 + found.1 := by
  have hi : i < doc.forest.size := Forest.node?_isSome_iff.1 (Option.isSome_iff_exists.2 ⟨_, hnode⟩)
  obtain ⟨d, hdepth⟩ := Option.isSome_iff_exists.1 (depth?_isSome_iff.2 hi)
  have hfound : (∃ found, node.children.child? component = some found ∧ j = i + 1 + found.1) ↔
      ∃ k, (node.children.child? component).map Prod.fst = some k ∧ j = i + 1 + k := by
    simp
  rw [hfound, node.children.child?_eq_findIdx? component (d + 1)]
  simp only [List.findIdx?_eq_some_iff_getElem, decide_eq_true_eq]
  constructor
  · intro h
    obtain ⟨inner, hinner, hlt, hle⟩ := h.parent.inside
    obtain rfl := Option.some.inj (hnode.symm.trans hinner)
    obtain ⟨k, rfl⟩ := Nat.exists_eq_add_of_le hlt
    have hk : k < (node.children.outline (d + 1)).length := by
      rw [Forest.length_outline]
      omega
    have hentry := (isParent_and_means_iff hnode hdepth hk component).1 ⟨h.parent, h.means⟩
    refine ⟨k, ⟨hk, hentry, ?_⟩, rfl⟩
    intro m hm hearlier
    obtain ⟨hparent, hmeans⟩ :=
      (isParent_and_means_iff hnode hdepth (Nat.lt_trans hm hk) component).2 hearlier
    exact h.first (i + 1 + m) (by omega) hparent hmeans
  · rintro ⟨k, ⟨hk, hthis, hbefore⟩, rfl⟩
    obtain ⟨hparent, hmeans⟩ := (isParent_and_means_iff hnode hdepth hk component).2 hthis
    refine ⟨hparent, hmeans, ?_⟩
    intro j hj hsibling hearlier
    obtain ⟨m, rfl⟩ := Nat.exists_eq_add_of_le hsibling.inside.lt
    have hm : m < k := by omega
    exact hbefore m hm ((isParent_and_means_iff hnode hdepth (Nat.lt_trans hm hk) component).1
      ⟨hsibling, hearlier⟩)

theorem exists_firstChild {component : Bytes} (hparent : doc.IsParent i j)
    (hmeans : Means (doc.nameAt j) component) : ∃ first, doc.FirstChild i component first := by
  classical
  have hexists : ∃ j, doc.IsParent i j ∧ Means (doc.nameAt j) component := ⟨j, hparent, hmeans⟩
  obtain ⟨hfound, hmeansFound⟩ := Nat.find_spec hexists
  refine ⟨Nat.find hexists, hfound, hmeansFound, ?_⟩
  intro k hk hsibling hearlier
  exact Nat.find_min hexists hk ⟨hsibling, hearlier⟩

/-- What is searched for among the children of a node is at the place of the child that a component
leads to, with what is inside that. -/
theorem FirstChild.exists_child {component : Bytes} (h : doc.FirstChild i component j)
    (hnode : doc.node? i = some node) :
    ∃ found child, node.children.child? component = some found ∧ j = i + 1 + found.1 ∧
      doc.node? j = some child ∧ child.children = found.2 := by
  obtain ⟨found, hfound, rfl⟩ := (firstChild_iff hnode).1 h
  obtain ⟨child, hchild, hchildren, -⟩ := Forest.exists_of_child? hfound
  have hlt : found.1 < node.children.size := Forest.node?_isSome_iff.1 (by rw [hchild]; rfl)
  exact ⟨found, child, hfound, rfl, (Forest.node?_inner hnode hlt).trans hchild, hchildren⟩

theorem LeadsAlong.descend {path : List Bytes} {target : Nat} (h : doc.LeadsAlong i path target)
    (hnode : doc.node? i = some node) : node.children.descend i path = some target := by
  induction h generalizing node with
  | here => rw [Forest.descend]
  | child hfirst _ ih =>
    obtain ⟨found, child, hfound, rfl, hchild, hchildren⟩ := hfirst.exists_child hnode
    rw [Forest.descend, hfound]
    dsimp only
    rw [← hchildren]
    exact ih hchild

theorem BreaksOff.descend {path : List Bytes} (h : doc.BreaksOff i path)
    (hnode : doc.node? i = some node) : node.children.descend i path = none := by
  induction h generalizing node with
  | @here i component rest hnone =>
    rw [Forest.descend]
    cases hfound : node.children.child? component with
    | none => rfl
    | some found =>
      have hfirst := (firstChild_iff hnode).2 ⟨found, hfound, rfl⟩
      exact absurd hfirst.means (hnone _ hfirst.parent)
  | child hfirst _ ih =>
    obtain ⟨found, child, hfound, rfl, hchild, hchildren⟩ := hfirst.exists_child hnode
    rw [Forest.descend, hfound]
    dsimp only
    rw [← hchildren]
    exact ih hchild

/-- Every path leads somewhere or breaks off. -/
theorem leadsAlong_or_breaksOff (doc : Document) (i : Nat) (path : List Bytes) :
    (∃ target, doc.LeadsAlong i path target) ∨ doc.BreaksOff i path := by
  induction path generalizing i with
  | nil => exact .inl ⟨i, .here⟩
  | cons component rest ih =>
    by_cases hmeant : ∃ j, doc.IsParent i j ∧ Means (doc.nameAt j) component
    · obtain ⟨j, hparent, hmeans⟩ := hmeant
      obtain ⟨first, hfirst⟩ := exists_firstChild hparent hmeans
      rcases ih first with ⟨target, hleads⟩ | hbreaks
      · exact .inl ⟨target, .child hfirst hleads⟩
      · exact .inr (.child hfirst hbreaks)
    · refine .inr (.here ?_)
      intro j hparent hmeans
      exact hmeant ⟨j, hparent, hmeans⟩

theorem find?_eq_some_iff {path : Bytes} (hslash : path.head? = some slash) {target : Nat} :
    doc.find? path = some target ↔ doc.LeadsAlong 0 (Tree.components path) target := by
  have hroot : doc.node? 0 = some ⟨doc.name, doc.properties, doc.children⟩ := rfl
  rw [find?, if_pos hslash]
  constructor
  · intro h
    rcases doc.leadsAlong_or_breaksOff 0 (Tree.components path) with ⟨target', hleads⟩ | hbreaks
    · have htarget := hleads.descend hroot
      dsimp only at htarget
      rw [h, Option.some.injEq] at htarget
      rwa [htarget]
    · have hnone := hbreaks.descend hroot
      dsimp only at hnone
      rw [h] at hnone
      cases hnone
  · intro h
    exact h.descend hroot

theorem find?_eq_none_iff {path : Bytes} (hslash : path.head? = some slash) :
    doc.find? path = none ↔ doc.BreaksOff 0 (Tree.components path) := by
  have hroot : doc.node? 0 = some ⟨doc.name, doc.properties, doc.children⟩ := rfl
  constructor
  · intro h
    rcases doc.leadsAlong_or_breaksOff 0 (Tree.components path) with ⟨target, hleads⟩ | hbreaks
    · rw [(find?_eq_some_iff hslash).2 hleads] at h
      cases h
    · exact hbreaks
  · intro h
    rw [find?, if_pos hslash]
    exact h.descend hroot

/-! ## Paths of full names -/

section FullNames

variable (doc : Document)

/-- The nodes from a child of the root down to a node, each directly below the one in front of
it. -/
structure Lineage (line : List Nat) (target : Nat) : Prop where
  parents : List.IsChain doc.IsParent (0 :: line)
  last : (0 :: line).getLast (List.cons_ne_nil 0 line) = target

/-- The names of the nodes below the root can be components of paths, and two children of a node
never have the same one. -/
structure IsPlain : Prop where
  component : ∀ i, 0 < i → i < doc.forest.size → doc.nameAt i ≠ [] ∧ slash ∉ doc.nameAt i
  distinct : ∀ i j k, doc.IsParent i j → doc.IsParent i k → doc.nameAt j = doc.nameAt k → j = k

/-- The name of a child has a unit address, or no earlier child has this name in front of its
own. -/
def Unhidden (i j : Nat) : Prop :=
  atSign ∈ doc.nameAt j ∨ ∀ k < j, doc.IsParent i k → baseName (doc.nameAt k) ≠ doc.nameAt j

instance (i j : Nat) : Decidable (doc.Unhidden i j) :=
  inferInstanceAs (Decidable (_ ∨ _))

end FullNames

theorem exists_lineage {target : Nat} (h : target < doc.forest.size) :
    ∃ line, doc.Lineage line target := by
  have hreach : Relation.ReflTransGen doc.IsParent 0 target := by
    rcases Nat.eq_zero_or_pos target with rfl | hpos
    · exact .refl
    · refine Relation.TransGen.to_reflTransGen (inside_iff.1 ⟨_, rfl, hpos, ?_⟩)
      simpa [forest, Forest.size, Nat.lt_succ_iff] using h
  obtain ⟨line, hline, hlast⟩ := List.exists_isChain_cons_of_relationReflTransGen hreach
  exact ⟨line, hline, hlast⟩

theorem exists_parent_of_mem {start : Nat} {line : List Nat}
    (h : List.IsChain doc.IsParent (start :: line)) (hj : j ∈ line) : ∃ i, doc.IsParent i j := by
  induction line generalizing start with
  | nil => cases hj
  | cons next rest ih =>
    obtain ⟨hparent, hrest⟩ := List.isChain_cons_cons.1 h
    rcases List.mem_cons.1 hj with rfl | hj
    · exact ⟨start, hparent⟩
    · exact ih hrest hj

/-- The full name of a child that is not hidden leads to this child. -/
theorem IsPlain.firstChild (h : doc.IsPlain) (hparent : doc.IsParent i j)
    (hunhidden : doc.Unhidden i j) : doc.FirstChild i (doc.nameAt j) j := by
  refine ⟨hparent, .inl rfl, ?_⟩
  intro k hk hsibling hmeans
  rcases hmeans with hname | ⟨hunit, hbase⟩
  · exact Nat.ne_of_lt hk (h.distinct i k j hsibling hparent hname)
  · rcases hunhidden with hunit' | hearlier
    · exact hunit hunit'
    · exact hearlier k hk hsibling hbase

theorem IsPlain.leadsAlong (h : doc.IsPlain) {start : Nat} {line : List Nat}
    (hparents : List.IsChain doc.IsParent (start :: line))
    (hunhidden : List.IsChain doc.Unhidden (start :: line)) :
    doc.LeadsAlong start (line.map doc.nameAt)
      ((start :: line).getLast (List.cons_ne_nil start line)) := by
  induction line generalizing start with
  | nil => exact .here
  | cons next rest ih =>
    obtain ⟨hparent, hparents⟩ := List.isChain_cons_cons.1 hparents
    obtain ⟨hnext, hunhidden⟩ := List.isChain_cons_cons.1 hunhidden
    rw [List.map_cons, List.getLast_cons_cons]
    exact .child (h.firstChild hparent hnext) (ih hparents hunhidden)

end Document

/-- The absolute path with these components. -/
def pathOf (names : List Bytes) : Bytes := slash :: [slash].intercalate names

theorem components_pathOf {names : List Bytes} (h : ∀ name ∈ names, name ≠ [] ∧ slash ∉ name) :
    Tree.components (pathOf names) = names := by
  have hsplit : (pathOf names).splitOn slash = [] :: ([slash].intercalate names).splitOn slash :=
    List.splitOnP_append_cons [] _ (beq_self_eq_true slash)
  have hfilter : names.filter (· ≠ []) = names := by
    rw [List.filter_eq_self]
    intro name hname
    simpa using (h name hname).1
  rw [Tree.components, hsplit, List.filter_cons, if_neg (by simp)]
  cases names with
  | nil => rfl
  | cons name rest =>
    rw [List.splitOn_intercalate slash (fun name hname => (h name hname).2) (List.cons_ne_nil _ _),
      hfilter]

theorem Tree.Stores.resolve_eq_some_iff {tree : Tree} {doc : Document} (h : tree.Stores doc)
    {path : Bytes} (hslash : path.head? = some slash) (ref : NodeRef) :
    tree.resolve path = .ok (some ref) ↔
      ∃ i, doc.LeadsAlong 0 (Tree.components path) i ∧ tree.nodes[i]? = some ref := by
  rw [h.resolve hslash, Except.ok.injEq, Option.bind_eq_some_iff]
  simp only [Document.find?_eq_some_iff hslash]

/-- **Paths.** A path leads to the node that is reached by taking for each component the first child
that the component means, and to none exactly if there is no such child for one of them. Where names
are plain, the path of the full names of the nodes on the way to a node leads to this node, unless
an earlier child hides one of them. -/
theorem Tree.Stores.resolves {tree : Tree} {doc : Document} (h : tree.Stores doc) :
    (∀ path : Bytes, path.head? = some slash →
      (∀ ref, tree.resolve path = .ok (some ref) ↔
        ∃ i, doc.LeadsAlong 0 (components path) i ∧ tree.nodes[i]? = some ref) ∧
      (tree.resolve path = .ok none ↔ doc.BreaksOff 0 (components path))) ∧
    (doc.IsPlain → ∀ i ref, tree.nodes[i]? = some ref → (∃ line, doc.Lineage line i) ∧
      ∀ line, doc.Lineage line i → List.IsChain doc.Unhidden (0 :: line) →
        tree.resolve (pathOf (line.map doc.nameAt)) = .ok (some ref)) := by
  refine ⟨fun path hslash => ⟨h.resolve_eq_some_iff hslash, ?_⟩, ?_⟩
  · rw [h.resolve hslash, ← Document.find?_eq_none_iff hslash, Except.ok.injEq]
    cases hfind : doc.find? path with
    | none => simp
    | some i =>
      obtain ⟨ref, -, -, -, -, -, -, href, -⟩ := h.exists_of_find? hfind
      simp [href]
  · intro hplain i ref href
    obtain ⟨node, pre, body, inner, post, hat⟩ := h.exists_storedAt href
    refine ⟨Document.exists_lineage hat.cut.lt_size, ?_⟩
    intro line hline hunhidden
    have hcomponents : components (pathOf (line.map doc.nameAt)) = line.map doc.nameAt := by
      refine components_pathOf ?_
      intro name hname
      obtain ⟨j, hj, rfl⟩ := List.mem_map.1 hname
      obtain ⟨parent, hparent⟩ := Document.exists_parent_of_mem hline.parents hj
      exact hplain.component j (Nat.zero_lt_of_lt hparent.inside.lt) hparent.inside.lt_size
    rw [h.resolve_eq_some_iff rfl, hcomponents]
    refine ⟨i, ?_, href⟩
    rw [← hline.last]
    exact hplain.leadsAlong hline.parents hunhidden

/-! ## A serial port that hides another node -/

namespace Tree

/-- A serial port and a node that has its name without a unit address, and a bus with two clocks. -/
def clockDocument : Document where
  name := []
  properties := []
  children :=
    .node "serial@5a060000" [] .nil
    (.node "serial" [] .nil
    (.node "bus@5a000000" [] (.node "clock" [] .nil (.node "clock@1" [] .nil .nil)) .nil))

def clockTree : Tree := clockDocument.write [] 0

theorem stores_clockTree : clockTree.Stores clockDocument :=
  Document.stores_write (by decide) rfl 0

theorem isPlain_clockDocument : clockDocument.IsPlain := by
  have hnames : ∀ i < 6, 0 < i → clockDocument.nameAt i ≠ [] ∧ slash ∉ clockDocument.nameAt i := by
    decide +kernel
  have hdistinct : ∀ j < 6, ∀ k < 6, clockDocument.nameAt j = clockDocument.nameAt k → j = k := by
    decide +kernel
  refine ⟨fun i hpos hi => hnames i hi hpos, ?_⟩
  intro i j k hj hk
  exact hdistinct j hj.inside.lt_size k hk.inside.lt_size

/-- The first node that a name means is taken, also where a later one has just this name, and nodes
further down are not looked at. The name of the first clock is not hidden. -/
theorem resolve_clockTree : ∃ serial clock, clockTree.nodes[1]? = some serial ∧
    clockTree.nodes[4]? = some clock ∧
    clockTree.resolve "/serial" = .ok (some serial) ∧
    clockTree.resolve "/clock" = .ok none ∧
    clockTree.resolve "/bus@5a000000/clock" = .ok (some clock) := by
  obtain ⟨hpaths, hfullNames⟩ := Stores.resolves stores_clockTree
  have hlength : clockTree.nodes.length = 6 := stores_clockTree.length_nodes
  have hserial := List.getElem?_eq_getElem (show 1 < clockTree.nodes.length by omega)
  have hclock := List.getElem?_eq_getElem (show 4 < clockTree.nodes.length by omega)
  have hfirst : clockDocument.FirstChild 0 "serial" 1 := ⟨by decide, by decide, by decide⟩
  have hnone : ∀ j < 6, clockDocument.IsParent 0 j → ¬ Means (clockDocument.nameAt j) "clock" := by
    decide +kernel
  have hline : clockDocument.Lineage [3, 4] 4 := ⟨by decide, rfl⟩
  have hunhidden : List.IsChain clockDocument.Unhidden [0, 3, 4] := by decide
  refine ⟨_, _, hserial, hclock, ?_, ?_, ?_⟩
  · exact ((hpaths "/serial" (by decide)).1 _).2 ⟨1, .child hfirst .here, hserial⟩
  · refine (hpaths "/clock" (by decide)).2.2 (.here ?_)
    intro j hj
    exact hnone j hj.inside.lt_size hj
  · exact (hfullNames isPlain_clockDocument 4 _ hclock).2 [3, 4] hline hunhidden

end Tree

end BootTree
