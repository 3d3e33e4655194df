import BootTree.Proofs.Document.Children
import BootTree.Proofs.Tree.Inserting

/-!
# BootTree.Proofs.Document.Gaining

Documents that are given what they lack. On the way down a path of names, a child that the next name
means is taken where there is one and added where there is none; then values are set at the end of
the path. A child that is added under a plain name is the one that the name means from then on, and
it hides no other from any path, so all of this happens once: doing it again changes nothing, and
neither does doing something else of the kind undo it.

* `Document.HasOrGains`, `Document.GainsPath`: one name of the path, and all of them.
* `Document.Grown`: all nodes are still there, and names that led to a child lead to it.
* `Document.Gains`, `Document.Has`: a document with values at the end of a path, and one that has
  them.
* `Document.Gains.has`, `Document.Has.gains`, `Document.Has.afterwards`: the values are there, they
  are gained once, and they stay.
-/

namespace BootTree

/-! ## Values -/

/-- The properties with each of these values set, in this order. -/
def withValues (values : List Property) (properties : List Property) : List Property :=
  values.foldl (fun properties p => withValue p.name p.value properties) properties

theorem withValue_eq_self {name value : Bytes} {properties : List Property}
    (h : valueOf? properties name = some value) : withValue name value properties = properties := by
  induction properties with
  | nil => cases h
  | cons p rest ih =>
    rw [withValue]
    by_cases hname : p.name = name
    · rw [if_pos hname, ← hname]
      simp only [valueOf?, List.find?_cons, hname, decide_true, Option.map_some,
        Option.some.injEq] at h
      rw [← h]
    · rw [if_neg hname]
      simp only [valueOf?, List.find?_cons, hname, decide_false] at h
      rw [ih h]

theorem withValues_eq_self {values properties : List Property}
    (h : ∀ p ∈ values, valueOf? properties p.name = some p.value) :
    withValues values properties = properties := by
  induction values with
  | nil => rfl
  | cons p rest ih =>
    rw [withValues, List.foldl_cons, withValue_eq_self (h p List.mem_cons_self)]
    exact ih fun q hq => h q (List.mem_cons_of_mem p hq)

theorem valueOf?_withValues_of_ne {values properties : List Property} {name : Bytes}
    (h : ∀ p ∈ values, name ≠ p.name) :
    valueOf? (withValues values properties) name = valueOf? properties name := by
  induction values generalizing properties with
  | nil => rfl
  | cons p rest ih =>
    rw [withValues, List.foldl_cons, ← withValues,
      ih fun q hq => h q (List.mem_cons_of_mem p hq),
      valueOf?_withValue_of_ne (h p List.mem_cons_self)]

theorem valueOf?_withValues {values properties : List Property}
    (hnames : (values.map Property.name).Nodup) {p : Property} (hp : p ∈ values) :
    valueOf? (withValues values properties) p.name = some p.value := by
  induction values generalizing properties with
  | nil => cases hp
  | cons first rest ih =>
    rw [List.map_cons, List.nodup_cons] at hnames
    rw [withValues, List.foldl_cons, ← withValues]
    rcases List.mem_cons.1 hp with rfl | hp
    · rw [valueOf?_withValues_of_ne, valueOf?_withValue]
      intro q hq hname
      exact hnames.1 (List.mem_map.2 ⟨q, hq, hname.symm⟩)
    · exact ih hnames.2 hp

/-- A name without a unit address is meant by no component but itself. -/
theorem Means.eq_of_notMem {name component : Bytes} (h : Means name component)
    (hunit : atSign ∉ name) : name = component := by
  rcases h with hname | ⟨-, hbase⟩
  · exact hname
  · rwa [baseName_of_notMem hunit] at hbase

/-! ## Nodes that are kept -/

/-- Old nodes are below each other exactly if they were. -/
theorem Kept.isParent_iff {rel : Nat → List Property → List Property → Prop}
    {before after : Document} {place : Nat → Nat} (h : Kept rel before after place) {i j : Nat}
    (hj : j < before.forest.size) : after.IsParent (place i) (place j) ↔ before.IsParent i j := by
  have hmono : StrictMono place := fun i j hlt => h.ordered i j hlt
  have hdepth {k : Nat} (hk : k < before.forest.size) :
      after.depth? (place k) = before.depth? k := by
    rw [Document.depth?, Document.depth?, h.entry k hk]
  refine ⟨fun hparent => ?_, h.parent i j⟩
  obtain ⟨⟨node, hnode, hlt, hle⟩, hbelow⟩ := hparent
  have hij : i < j := hmono.lt_iff_lt.1 hlt
  have hi := Nat.lt_trans hij hj
  obtain ⟨depth, houter⟩ := Option.isSome_iff_exists.1 (Document.depth?_isSome_iff.2 hi)
  rw [hdepth hj, hdepth hi] at hbelow
  refine ⟨Document.inside_of_deeper houter hij hj ?_, hbelow⟩
  intro m him hmj inner hinner
  have hinside : after.Inside (place i) (place m) :=
    ⟨node, hnode, hmono him, Nat.le_trans (hmono.monotone hmj) hle⟩
  have hm := Nat.lt_of_le_of_lt hmj hj
  exact hinside.depth_lt (by rw [hdepth hi, houter]) (by rw [hdepth hm, hinner])

namespace Document

variable {doc mid doc' : Document} {i j n target : Nat} {name component : Bytes} {path : List Bytes}

theorem FirstChild.unique {other : Nat} (h : doc.FirstChild i component j)
    (h' : doc.FirstChild i component other) : j = other := by
  rcases Nat.lt_trichotomy j other with hlt | heq | hgt
  · exact absurd h.means (h'.first j hlt h.parent)
  · exact heq
  · exact absurd h'.means (h.first other hgt h'.parent)

theorem FirstChild.ofOutline (houtline : doc'.outline = doc.outline)
    (h : doc.FirstChild i component j) : doc'.FirstChild i component j := by
  have hkept : Kept (fun _ _ _ => True) doc doc' id := .ofOutline houtline fun _ _ => trivial
  have hback : Kept (fun _ _ _ => True) doc' doc id := .ofOutline houtline.symm fun _ _ => trivial
  have hname (k : Nat) : doc'.nameAt k = doc.nameAt k := by rw [nameAt, houtline, nameAt]
  refine ⟨hkept.parent i j h.parent, by rw [hname]; exact h.means, ?_⟩
  intro k hk hsibling
  rw [hname]
  exact h.first k hk (hback.parent i k hsibling)

/-- Every old node is there, with the same properties, and a name that led to a child of an old node
leads to the same one. -/
structure Grown (doc doc' : Document) (place : Nat → Nat) : Prop where
  kept : Kept (fun _ before after => after = before) doc doc' place
  firstChild : ∀ i component j, doc.FirstChild i component j →
    doc'.FirstChild (place i) component (place j)

namespace Grown

variable {place place' : Nat → Nat}

theorem refl (doc : Document) : doc.Grown doc id :=
  ⟨.refl doc fun _ _ => rfl, fun _ _ _ => id⟩

theorem trans (h : doc.Grown mid place) (h' : mid.Grown doc' place') :
    doc.Grown doc' fun i => place' (place i) := by
  refine ⟨h.kept.trans h'.kept ?_, ?_⟩
  · intro i before between after hfirst hsecond
    rw [hsecond, hfirst]
  · intro i component j hfirst
    exact h'.firstChild _ _ _ (h.firstChild _ _ _ hfirst)

theorem leadsAlong (h : doc.Grown doc' place) (hleads : doc.LeadsAlong i path target) :
    doc'.LeadsAlong (place i) path (place target) := by
  induction hleads with
  | here => exact .here
  | child hfirst _ ih => exact .child (h.firstChild _ _ _ hfirst) ih

end Grown

/-! ## One name -/

/-- The child of a node that a name means, in this document or, where the node has none, in the one
with an empty child of this name. -/
inductive HasOrGains (doc : Document) (i : Nat) (name : Bytes) : Document → Nat → Prop where
  | has {j : Nat} : doc.FirstChild i name j → HasOrGains doc i name doc j
  | gains : (∀ j, doc.IsParent i j → ¬ Means (doc.nameAt j) name) →
      HasOrGains doc i name (doc.withChild i name) (i + 1)

theorem nameAt_newChild (name : Bytes) (hn : n < doc.forest.size) :
    (doc.withChild n name).nameAt (n + 1) = name := by
  obtain ⟨depth, hdepth⟩ := Option.isSome_iff_exists.1 (depth?_isSome_iff.2 hn)
  have hfront := length_outline_take hn
  rw [nameAt, outline_withChild name hdepth, List.getElem?_append_right (by omega), hfront,
    Nat.sub_self]
  rfl

theorem nameAt_placeBeside (name : Bytes) (hn : n < doc.forest.size) (i : Nat) :
    (doc.withChild n name).nameAt (placeBeside n i) = doc.nameAt i := by
  rw [nameAt, outline_placeBeside name hn, nameAt]

theorem size_withChild (name : Bytes) (hn : n < doc.forest.size) :
    (doc.withChild n name).forest.size = doc.forest.size + 1 := by
  rw [forest_withChild name hn, Forest.size_withChild name hn]

/-- The new child is below nothing but the node that it was added to and what this is inside. -/
theorem eq_of_isParent_newChild (hn : n < doc.forest.size)
    (h : (doc.withChild n name).IsParent (placeBeside n i) (n + 1)) : i = n := by
  have hlt := h.inside.lt
  have hle : i ≤ n := by
    by_contra hbehind
    rw [placeBeside_of_lt (by omega)] at hlt
    omega
  by_contra hne
  -- otherwise the node added to would be inside the other one, and no deeper than its children
  obtain ⟨node, hnode, -, hsize⟩ := h.inside
  have hplace : placeBeside n n = n := placeBeside_of_le (Nat.le_refl n)
  rw [placeBeside_of_le hle] at hnode hsize h
  have hinside : (doc.withChild n name).Inside i n := ⟨node, hnode, by omega, by omega⟩
  obtain ⟨depth, hdepth⟩ := Option.isSome_iff_exists.1 (depth?_isSome_iff.2 hn)
  have hsame : (doc.withChild n name).depth? n = some depth := by
    have houtline := outline_placeBeside name hn n
    rw [hplace] at houtline
    rw [depth?, houtline, ← depth?, hdepth]
  have hbelow := h.depth
  rw [depth?_newChild name hdepth] at hbelow
  obtain ⟨outer, houter, hone⟩ := Option.map_eq_some_iff.1 hbelow.symm
  have hdeeper := hinside.depth_lt houter hsame
  omega

theorem firstChild_newChild (name : Bytes) (hn : n < doc.forest.size) :
    (doc.withChild n name).FirstChild n name (n + 1) := by
  obtain ⟨node, hnode⟩ := Option.isSome_iff_exists.1 (Forest.node?_isSome_iff.2 hn)
  obtain ⟨depth, hdepth⟩ := Option.isSome_iff_exists.1 (depth?_isSome_iff.2 hn)
  have hself := node?_withChild_self name hnode
  have hsize : n + 1 ≤ n + (Forest.node name [] .nil node.children).size := by
    rw [Forest.size]
    omega
  refine ⟨⟨⟨_, hself, Nat.lt_succ_self n, hsize⟩, ?_⟩, .inl (nameAt_newChild name hn), ?_⟩
  · have hsame := outline_placeBeside name hn n
    rw [placeBeside_of_le (Nat.le_refl n)] at hsame
    rw [depth?_newChild name hdepth, depth?, hsame, ← depth?, hdepth]
    rfl
  · intro k hk hparent
    have := hparent.inside.lt
    omega

/-- A new child hides no other one, if no child was meant by its name. -/
theorem grown_withChild (hn : n < doc.forest.size) (hplain : atSign ∉ name)
    (hnone : ∀ j, doc.IsParent n j → ¬ Means (doc.nameAt j) name) :
    doc.Grown (doc.withChild n name) (placeBeside n) := by
  have hkept := kept_withChild name hn
  refine ⟨hkept, ?_⟩
  intro i component j h
  refine ⟨hkept.parent i j h.parent, by rw [nameAt_placeBeside name hn]; exact h.means, ?_⟩
  intro m hm hparent hmeans
  by_cases hnew : m = n + 1
  · rw [hnew] at hparent hmeans
    obtain rfl := eq_of_isParent_newChild hn hparent
    rw [nameAt_newChild name hn] at hmeans
    obtain rfl := hmeans.eq_of_notMem hplain
    exact hnone j h.parent h.means
  · obtain ⟨k, rfl⟩ := exists_placeBeside hnew
    have hkj : k < j := (strictMono_placeBeside n).lt_iff_lt.1 hm
    rw [hkept.isParent_iff (Nat.lt_trans hkj h.parent.inside.lt_size)] at hparent
    rw [nameAt_placeBeside name hn] at hmeans
    exact h.first k hkj hparent hmeans

namespace HasOrGains

theorem unique {other : Document} {k : Nat} (h : doc.HasOrGains i name doc' j)
    (h' : doc.HasOrGains i name other k) : doc' = other ∧ j = k := by
  cases h with
  | has hfirst =>
    cases h' with
    | has hfirst' => exact ⟨rfl, hfirst.unique hfirst'⟩
    | gains hnone => exact absurd hfirst.means (hnone _ hfirst.parent)
  | gains hnone =>
    cases h' with
    | has hfirst => exact absurd hfirst.means (hnone _ hfirst.parent)
    | gains _ => exact ⟨rfl, rfl⟩

theorem firstChild (h : doc.HasOrGains i name doc' j) (hi : i < doc.forest.size) :
    doc'.FirstChild i name j := by
  cases h with
  | has hfirst => exact hfirst
  | gains _ => exact firstChild_newChild name hi

/-- The nodes up to the parent do not even move. -/
theorem exists_grown (h : doc.HasOrGains i name doc' j) (hi : i < doc.forest.size)
    (hplain : atSign ∉ name) :
    ∃ place : Nat → Nat, doc.Grown doc' place ∧ ∀ k ≤ i, place k = k := by
  cases h with
  | has _ => exact ⟨id, .refl doc, fun _ _ => rfl⟩
  | gains hnone => exact ⟨_, grown_withChild hi hplain hnone, fun _ hk => placeBeside_of_le hk⟩

end HasOrGains

/-! ## A path of names -/

/-- Where the names of a path lead, each to a child that is there or is added. -/
inductive GainsPath : Document → Nat → List Bytes → Document → Nat → Prop where
  | here {doc : Document} {i : Nat} : GainsPath doc i [] doc i
  | step {doc mid doc' : Document} {i j target : Nat} {name : Bytes} {rest : List Bytes} :
      doc.HasOrGains i name mid j → GainsPath mid j rest doc' target →
      GainsPath doc i (name :: rest) doc' target

namespace GainsPath

theorem unique {other : Document} {k : Nat} (h : doc.GainsPath i path doc' target)
    (h' : doc.GainsPath i path other k) : doc' = other ∧ target = k := by
  induction h with
  | here =>
    cases h'
    exact ⟨rfl, rfl⟩
  | step hstep _ ih =>
    cases h' with
    | step hstep' hrest =>
      obtain ⟨rfl, rfl⟩ := hstep.unique hstep'
      exact ih hrest

theorem ofLeadsAlong (h : doc.LeadsAlong i path target) : doc.GainsPath i path doc target := by
  induction h with
  | here => exact .here
  | child hfirst _ ih => exact .step (.has hfirst) ih

theorem exists_grown (h : doc.GainsPath i path doc' target) (hi : i < doc.forest.size)
    (hplain : ∀ name ∈ path, atSign ∉ name) :
    ∃ place : Nat → Nat, doc.Grown doc' place ∧ ∀ k ≤ i, place k = k := by
  induction h with
  | here => exact ⟨id, .refl _, fun _ _ => rfl⟩
  | step hstep _ ih =>
    have hfirst := hstep.firstChild hi
    have hij := hfirst.parent.inside.lt
    obtain ⟨place, hgrown, hfixed⟩ := hstep.exists_grown hi (hplain _ List.mem_cons_self)
    obtain ⟨place', hgrown', hfixed'⟩ := ih hfirst.parent.inside.lt_size fun name hname =>
      hplain name (List.mem_cons_of_mem _ hname)
    refine ⟨_, hgrown.trans hgrown', ?_⟩
    intro k hk
    rw [hfixed k hk, hfixed' k (by omega)]

/-- The path leads to its end from then on. -/
theorem leadsAlong (h : doc.GainsPath i path doc' target) (hi : i < doc.forest.size)
    (hplain : ∀ name ∈ path, atSign ∉ name) : doc'.LeadsAlong i path target := by
  induction h with
  | here => exact .here
  | @step _ _ _ i j target name _ hstep hrest ih =>
    have hfirst := hstep.firstChild hi
    have hj := hfirst.parent.inside.lt_size
    have hothers : ∀ other ∈ _, atSign ∉ other := fun other hother =>
      hplain other (List.mem_cons_of_mem _ hother)
    obtain ⟨place, hgrown, hfixed⟩ := hrest.exists_grown hj hothers
    have hchild := hgrown.firstChild _ _ _ hfirst
    rw [hfixed i (Nat.le_of_lt hfirst.parent.inside.lt), hfixed j (Nat.le_refl j)] at hchild
    exact .child hchild (ih hj hothers)

end GainsPath

/-! ## Values at the end of a path -/

variable {values : List Property}

/-- The document with values at the end of a path of names from the root, which is there or is
added. -/
def Gains (doc : Document) (path : List Bytes) (values : List Property) (doc' : Document) : Prop :=
  ∃ grown target, doc.GainsPath 0 path grown target ∧
    doc' = grown.alter (withValues values) id target

/-- The path leads to a node with these values. -/
def Has (doc : Document) (path : List Bytes) (values : List Property) : Prop :=
  ∃ target, doc.LeadsAlong 0 path target ∧ ∀ p ∈ values, doc.value? target p.name = some p.value

theorem lt_size_of_leadsAlong (h : doc.LeadsAlong i path target) (hi : i < doc.forest.size) :
    target < doc.forest.size := by
  induction h with
  | here => exact hi
  | child hfirst _ ih => exact ih hfirst.parent.inside.lt_size

theorem LeadsAlong.alter (h : doc.LeadsAlong i path target) (p : List Property → List Property)
    (n : Nat) : (doc.alter p id n).LeadsAlong i path target := by
  induction h with
  | here => exact .here
  | child hfirst _ ih => exact .child (hfirst.ofOutline (outline_alter p doc n)) ih

theorem value?_alter (p : List Property → List Property) (hn : n < doc.forest.size) (i : Nat)
    (name : Bytes) : (doc.alter p id n).value? i name =
      if n = i then valueOf? (p (doc.propertiesAt i)) name else doc.value? i name := by
  rw [value?, propertiesAt_alter p hn]
  split <;> rfl

theorem Gains.unique {other : Document} (h : doc.Gains path values doc')
    (h' : doc.Gains path values other) : doc' = other := by
  obtain ⟨grown, target, hpath, rfl⟩ := h
  obtain ⟨grown', target', hpath', rfl⟩ := h'
  obtain ⟨rfl, rfl⟩ := hpath.unique hpath'
  rfl

/-- The values are there. -/
theorem Gains.has (h : doc.Gains path values doc') (hplain : ∀ name ∈ path, atSign ∉ name)
    (hnames : (values.map Property.name).Nodup) : doc'.Has path values := by
  obtain ⟨grown, target, hpath, rfl⟩ := h
  have hleads := hpath.leadsAlong (Nat.succ_pos _) hplain
  have htarget := lt_size_of_leadsAlong hleads (Nat.succ_pos _)
  refine ⟨target, hleads.alter _ target, ?_⟩
  intro p hp
  rw [value?_alter _ htarget, if_pos rfl, valueOf?_withValues hnames hp]

/-- Values that are there are not gained again. -/
theorem Has.gains (h : doc.Has path values) : doc.Gains path values doc := by
  obtain ⟨target, hleads, hvalues⟩ := h
  refine ⟨doc, target, .ofLeadsAlong hleads, ?_⟩
  have htarget := lt_size_of_leadsAlong hleads (Nat.succ_pos _)
  obtain ⟨node, hnode⟩ := Option.isSome_iff_exists.1 (Forest.node?_isSome_iff.2 htarget)
  have hproperties : doc.properties? target = some (doc.propertiesAt target) := by
    rw [propertiesAt, properties?, node?, hnode]
    rfl
  exact (alter_eq_self hproperties (withValues_eq_self hvalues)).symm

/-- They stay when values under other names are gained, wherever these are. -/
theorem Has.afterwards {path' : List Bytes} {values' : List Property} (h : doc.Has path' values')
    (hgains : doc.Gains path values doc') (hplain : ∀ name ∈ path, atSign ∉ name)
    (hnames : ∀ p ∈ values', ∀ q ∈ values, p.name ≠ q.name) : doc'.Has path' values' := by
  obtain ⟨target', hleads', hvalues'⟩ := h
  obtain ⟨grown, target, hpath, rfl⟩ := hgains
  obtain ⟨place, hgrown, hfixed⟩ := hpath.exists_grown (Nat.succ_pos _) hplain
  have htarget' := lt_size_of_leadsAlong hleads' (Nat.succ_pos _)
  have htarget := lt_size_of_leadsAlong (hpath.leadsAlong (Nat.succ_pos _) hplain) (Nat.succ_pos _)
  have hkept := hgrown.leadsAlong hleads'
  rw [hfixed 0 (Nat.le_refl 0)] at hkept
  refine ⟨place target', hkept.alter _ target, ?_⟩
  intro p hp
  have hsame : grown.value? (place target') p.name = some p.value := by
    rw [value?, hgrown.kept.properties target' htarget']
    exact hvalues' p hp
  rw [value?_alter _ htarget]
  split
  · rw [valueOf?_withValues_of_ne (hnames p hp)]
    exact hsame
  · exact hsame

end Document

end BootTree
