import BootTree.Proofs.Edma.Frame
import BootTree.Proofs.Image.Atomic
import BootTree.Proofs.PowerDomain.Frame

/-!
# BootTree.Proofs.Setup.Confined

How much the strings block grows. A property takes its name from the strings block if it is there, so
whoever writes some names only, and other properties only where they are already there, adds each of
these names at most once. What fits at the beginning then fits at every later time.

* `Tree.sizeWith`: the size of the strings block once it has some names.
* `Confined`: runs that add no other names, and that only add to the memory reservations.
* `confined_setValue`: setting a property whose name is one of them or is there.
* `confined_restrict`, `confined_reconcile`: the fixups of power domains and of DMA channels.
-/

namespace BootTree

open Blob

namespace Tree

/-- Whether the strings block has a name. -/
def Knows (tree : Tree) (name : Bytes) : Prop := (Strings.find? tree.strings name).isSome = true

/-- The size of the strings block once it has all of these names. -/
def sizeWith (tree : Tree) (names : List Bytes) : Nat :=
  tree.strings.length + (names.map tree.nameCost).sum

variable {tree tree' : Tree} {name : Bytes} {names : List Bytes}

theorem nameCost_of_knows (h : tree.Knows name) : tree.nameCost name = 0 := if_pos h

theorem nameCost_of_not_knows (h : ¬ tree.Knows name) : tree.nameCost name = name.length + 1 :=
  if_neg h

theorem withName_of_knows (h : tree.Knows name) : tree.withName name = tree := if_pos h

theorem nameCost_le_of_knows (h : tree.Knows name → tree'.Knows name) :
    tree'.nameCost name ≤ tree.nameCost name := by
  by_cases hknows : tree.Knows name
  · rw [nameCost_of_knows (h hknows)]
    exact Nat.zero_le _
  · rw [nameCost_of_not_knows hknows]
    exact tree'.nameCost_le name

theorem knows_withName {other : Bytes} (h : tree.Knows other) : (tree.withName name).Knows other := by
  by_cases hname : tree.Knows name
  · rw [withName_of_knows hname]
    exact h
  · obtain ⟨offset, hoffset⟩ := Option.isSome_iff_exists.1 h
    obtain ⟨hlt, hthere⟩ := Strings.find?_bound hoffset
    have hstrings : (tree.withName name).strings = tree.strings ++ (name ++ [0]) := by
      unfold Knows at hname
      rw [withName, if_neg hname]
      exact List.append_assoc _ _ _
    have hstill : other ++ [0] <+: (tree.strings ++ (name ++ [0])).drop offset := by
      rw [List.drop_append_of_le_length (by omega)]
      exact hthere.trans (List.prefix_append _ _)
    obtain ⟨found, hfound, -⟩ := Strings.find?_le hstill
    rw [Knows, hstrings, hfound]
    rfl

/-- Once a name is stored, it costs nothing any more; that is what it has taken. -/
theorem sizeWith_withName (h : name ∈ names) :
    (tree.withName name).sizeWith names ≤ tree.sizeWith names := by
  have hcosts (others : List Bytes) :
      (others.map (tree.withName name).nameCost).sum ≤ (others.map tree.nameCost).sum :=
    List.sum_le_sum fun other _ => nameCost_le_of_knows knows_withName
  have hsum : (names.map (tree.withName name).nameCost).sum + tree.nameCost name ≤
      (names.map tree.nameCost).sum + (tree.withName name).nameCost name := by
    obtain ⟨front, behind, rfl⟩ := List.append_of_mem h
    have hfront := hcosts front
    have hbehind := hcosts behind
    simp only [List.map_append, List.map_cons, List.sum_append, List.sum_cons]
    omega
  have hlength := length_strings_withName tree name
  unfold sizeWith
  omega

theorem nameCost_le_sizeWith (h : name ∈ names) :
    tree.strings.length + tree.nameCost name ≤ tree.sizeWith names := by
  have hmem := List.mem_map_of_mem (f := tree.nameCost) h
  exact Nat.add_le_add_left (List.single_le_sum (fun _ _ => Nat.zero_le _) _ hmem) _

end Tree

/-- Runs that add no other names than these to the strings block, none of them twice, and that only
add to the memory reservations. -/
structure Confined (names : List Bytes) (tree tree' : Tree) : Prop where
  size : tree'.sizeWith names ≤ tree.sizeWith names
  knows : ∀ name, tree.Knows name → tree'.Knows name
  reserved : tree.reserved <+: tree'.reserved

namespace Confined

variable {names : List Bytes} {name : Bytes} {tree tree' tree'' : Tree}

theorem refl (names : List Bytes) (tree : Tree) : Confined names tree tree :=
  ⟨Nat.le_refl _, fun _ => id, List.prefix_refl _⟩

theorem trans (h : Confined names tree tree') (h' : Confined names tree' tree'') :
    Confined names tree tree'' :=
  ⟨Nat.le_trans h'.size h.size, fun name hname => h'.knows name (h.knows name hname),
    h.reserved.trans h'.reserved⟩

theorem cumulative (names : List Bytes) :
    Cumulative fun tree _ tree' => Confined names tree tree' where
  start := refl names
  append := trans
  logged tree _ := refl names tree

theorem ofStrings (hstrings : tree'.strings = tree.strings)
    (hreserved : tree.reserved <+: tree'.reserved) : Confined names tree tree' := by
  have hcost : tree'.nameCost = tree.nameCost := by
    funext name
    rw [Tree.nameCost, Tree.nameCost, hstrings]
  refine ⟨?_, ?_, hreserved⟩
  · rw [Tree.sizeWith, Tree.sizeWith, hcost, hstrings]
  · intro name hname
    rwa [Tree.Knows, hstrings]

/-- One more property name, which may already be there. -/
theorem ofName (hname : name ∈ names ∨ tree.Knows name)
    (hstrings : tree'.strings = tree.strings ∨ tree'.strings = (tree.withName name).strings)
    (hreservations : tree'.reservations = tree.reservations) : Confined names tree tree' := by
  have hreserved : tree.reserved <+: tree'.reserved := by
    rw [Tree.reserved, Tree.reserved, hreservations]
  rcases hstrings with hsame | hwith
  · exact ofStrings hsame hreserved
  · rcases hname with hmem | hknows
    · have hadded : Confined names tree (tree.withName name) := by
        refine ⟨Tree.sizeWith_withName hmem, fun _ => Tree.knows_withName, ?_⟩
        unfold Tree.withName
        split <;> exact List.prefix_refl _
      have hrest : Confined names (tree.withName name) tree' := by
        refine ofStrings hwith ?_
        unfold Tree.withName
        split <;> exact hreserved
      exact hadded.trans hrest
    · rw [Tree.withName_of_knows hknows] at hwith
      exact ofStrings hwith hreserved

theorem reservations_append {entries : List Reservation}
    (hstrings : tree'.strings = tree.strings)
    (hreservations : tree'.reservations = tree.reservations ++ entries) :
    Confined names tree tree' := by
  refine ofStrings hstrings ?_
  rw [Tree.reserved, Tree.reserved, hreservations, List.takeWhile_append]
  split
  · exact (List.takeWhile_prefix _).trans (List.prefix_append _ _)
  · exact List.prefix_refl _

end Confined

/-! ## Edits -/

section Edits

variable {names : List Bytes} {tree tree' : Tree} {node : NodeRef} {name value : Bytes}

theorem Tree.knows_of_property? {found : Located} (h : tree.property? node name = .ok (some found)) :
    tree.Knows name := by
  have hfrom (offset : Nat) (tokens : Bytes)
      (h : propertyFrom tree.strings name offset tokens = .ok (some found)) : tree.Knows name := by
    fun_induction propertyFrom tree.strings name offset tokens with
    | case1 | case2 | case6 => cases h
    | case3 _ _ _ _ _ hread => exact Strings.find?_of_read hread
    | case4 _ _ _ _ _ _ _ _ _ ih => exact ih h
    | case5 _ _ _ ih => exact ih h
  rw [property?] at h
  cases henter : tree.enter node with
  | error e => rw [henter] at h; cases h
  | ok entered => rw [henter] at h; exact hfrom _ _ h

theorem Tree.knows_of_value {raw : Bytes} (h : tree.value node name = .ok (some raw)) :
    tree.Knows name := by
  obtain ⟨found, hfound, -⟩ := value_eq_some_iff.1 h
  exact knows_of_property? hfound

theorem Tree.knows_of_valueAs {α : Type} {decode : Bytes → Except ValueError α} {a : α}
    (h : tree.valueAs decode node name = .ok (some a)) : tree.Knows name := by
  obtain ⟨raw, hraw, -⟩ := valueAs_eq_some_iff.1 h
  exact knows_of_value hraw

theorem Tree.confined_setValue (hname : name ∈ names ∨ tree.Knows name)
    (h : setValue node name value tree = .ok () tree') : Confined names tree tree' := by
  rw [setValue_eq] at h
  split at h
  · cases h
  · rw [spliceStruct_eq] at h
    split at h
    · cases h
    · cases h
      exact .ofName hname (.inl rfl) rfl
  · rw [appendProperty_eq] at h
    split at h
    · cases h
    · split at h
      · cases h
      · cases h
        refine .ofName hname (.inr rfl) ?_
        unfold spliced withName
        split <;> rfl

/-- Runs that are confined if these names are known. -/
def ConfinedIf (names required : List Bytes) (tree : Tree) (_ : List Event) (tree' : Tree) : Prop :=
  (∀ name ∈ required, name ∈ names ∨ tree.Knows name) → Confined names tree tree'

theorem cumulative_confinedIf (names required : List Bytes) :
    Cumulative (ConfinedIf names required) where
  start tree _ := .refl names tree
  append h h' hrequired := by
    refine (h hrequired).trans (h' ?_)
    intro name hname
    exact (hrequired name hname).imp_right ((h hrequired).knows name)
  logged tree _ _ := .refl names tree

variable {required : List Bytes}

theorem keeps_grow (increment : Nat) :
    Fixup.Keeps (ConfinedIf names required) (Fixup.edit (Tree.grow increment)) := by
  apply Fixup.Keeps.edit
  · intro tree _ tree' h _
    rcases tree.grow_cases increment with ⟨e, herror⟩ | hgrown
    · rw [herror] at h
      cases h
    · rw [hgrown] at h
      cases h
      exact .ofStrings rfl (List.prefix_refl _)
  · intro tree e tree' h _
    rw [(Tree.atomic_grow increment tree e tree' h).1]
    exact .refl names tree

theorem keeps_setValue (hname : name ∈ required) (node : NodeRef) (value : Bytes) :
    Fixup.Keeps (ConfinedIf names required) (Fixup.edit (Tree.setValue node name value)) := by
  apply Fixup.Keeps.edit
  · intro tree _ tree' h hrequired
    exact Tree.confined_setValue (hrequired name hname) h
  · intro tree e tree' h _
    rw [(Tree.atomic_setValue node name value tree e tree' h).1]
    exact .refl names tree

end Edits

/-! ## Whole fixups -/

theorem confined_restrict {names : List Bytes} (hname : Bytes.ofText "status" ∈ names)
    (owns : Ownership) (tree : Tree) :
    Confined names tree (Fixup.result (PowerDomain.restrict owns) tree).2 := by
  have hR := cumulative_confinedIf names ["status"]
  have hsteps : PowerDomain.StepsKeep (ConfinedIf names ["status"]) := by
    refine ⟨hR, fun tree _ _ => .refl names tree, ?_⟩
    intro node
    exact .withGrowth hR (keeps_setValue List.mem_cons_self node _) (keeps_grow _)
  apply hsteps.keeps_restrict owns tree
  intro name hmem
  obtain rfl := List.mem_singleton.1 hmem
  exact .inl hname

namespace Edma

variable {tree : Tree} {node : NodeRef} {registers : List UInt32} {arrays : ChannelArrays}

/-- The arrays that were read are all there, apart from `reg`, which was read before. -/
theorem knows_of_readArrays (h : readArrays tree node registers = .ok (some arrays))
    (other : ChannelArrays) :
    ∀ w ∈ other.properties, Bytes.ofText w.1 = Bytes.ofText "reg" ∨ tree.Knows w.1 := by
  unfold readArrays at h
  obtain ⟨interrupts, hinterrupts, h⟩ := exists_of_bind_eq_ok h
  cases interrupts with
  | none => cases h
  | some interrupts =>
  obtain ⟨channels, hchannels, h⟩ := exists_of_bind_eq_ok h
  dsimp only at h
  by_cases hzero : channels.getD 0 = 0
  · rw [if_pos hzero] at h
    cases h
  rw [if_neg hzero] at h
  cases channels with
  | none => exact absurd rfl hzero
  | some channels =>
  obtain ⟨interruptNames, hinterruptNames, h⟩ := exists_of_bind_eq_ok h
  cases interruptNames with
  | none => cases h
  | some interruptNames =>
  obtain ⟨powerDomains, hpowerDomains, h⟩ := exists_of_bind_eq_ok h
  cases powerDomains with
  | none => cases h
  | some powerDomains =>
  obtain ⟨powerDomainNames, hpowerDomainNames, h⟩ := exists_of_bind_eq_ok h
  cases powerDomainNames with
  | none => cases h
  | some powerDomainNames =>
  intro w hw
  simp only [ChannelArrays.properties, List.mem_cons, List.not_mem_nil, or_false] at hw
  rcases hw with rfl | rfl | rfl | rfl | rfl | rfl
  · exact .inl rfl
  · exact .inr (Tree.knows_of_valueAs hinterrupts)
  · exact .inr (Tree.knows_of_valueAs hchannels)
  · exact .inr (Tree.knows_of_value hinterruptNames)
  · exact .inr (Tree.knows_of_valueAs hpowerDomains)
  · exact .inr (Tree.knows_of_value hpowerDomainNames)

theorem keeps_writeArrays {names required : List Bytes}
    (h : ∀ w ∈ arrays.properties, Bytes.ofText w.1 ∈ required) (node : NodeRef) (path : String) :
    Fixup.Keeps (ConfinedIf names required) (writeArrays node path arrays) := by
  apply Fixup.Keeps.forM (cumulative_confinedIf names required)
  intro w hw
  exact keeps_update (cumulative_confinedIf names required) (keeps_setValue (h w hw) node w.2)
    (keeps_grow _)

end Edma

theorem confined_reconcile {names : List Bytes} (hmask : Bytes.ofText "dma-channel-mask" ∈ names)
    (hreg : Bytes.ofText "reg" ∈ names) (owns : Ownership) (map : List Edma.ChannelRange)
    (granted : Nat → Bool) (tree : Tree) :
    Confined names tree (Fixup.result (Edma.reconcile owns map granted) tree).2 := by
  refine Edma.keeps_reconcile (Confined.cumulative names) ?_ granted tree
  intro range _
  refine ⟨fun _ _ _ tree => .refl names tree, ?_, ?_⟩
  · intro _ _ _ node value tree
    apply Edma.keeps_update (cumulative_confinedIf names ["dma-channel-mask"])
      (keeps_setValue List.mem_cons_self node value) (keeps_grow _) tree
    intro name hname
    obtain rfl := List.mem_singleton.1 hname
    exact .inl hmask
  · intro _ _ _ tree node registers arrays hread set
    have hwrite : Fixup.Keeps
        (ConfinedIf names ((arrays.compact set).properties.map fun w => Bytes.ofText w.1))
        (Edma.writeArrays node range.nodePath (arrays.compact set)) :=
      Edma.keeps_writeArrays (fun w hw => List.mem_map.2 ⟨w, hw, rfl⟩) node range.nodePath
    apply hwrite tree
    intro name hname
    obtain ⟨w, hw, rfl⟩ := List.mem_map.1 hname
    rcases Edma.knows_of_readArrays hread _ w hw with heq | hknows
    · exact .inl (heq ▸ hreg)
    · exact .inr hknows

end BootTree
