import BootTree.Proofs.Image.Editing

/-!
# BootTree.Proofs.Image.Measured

What an edit of a tree costs. Free space decides whether the edit succeeds and nothing else: what it
answers, and the blocks it leaves behind, are the same in a tree with more of it. Where a property is
set, its name is stored before the place for it is looked for; but that place is found whenever the
search for an old property of this name came to an end without one, since both go through the same
tokens.

* `Edit.Costs`, `Edit.Refused`: an edit that some amount of space lets succeed, and one that fails
  however much there is. `Edit.Measured`: every tree makes it one of the two.
* `Edit.Measured.ok`, `Edit.Measured.error`, `Edit.Measured.noSpace`: what follows from the outcome
  of such an edit for trees with another amount of free space.
* `Tree.measured_reserve`, `Tree.measured_setValue`, `Tree.measured_addChild`: edit by edit.
-/

namespace BootTree

open Blob

/-! ## What an edit costs -/

namespace Edit

variable {α : Type}

/-- The edit puts `new` bytes in the place of `old` ones. It only fails for want of the difference,
and neither its answer nor the blocks it leaves behind depend on how much more space is free. -/
structure Costs (e : Edit α) (tree : Tree) (old new : Nat) (a : α) (changed : Tree) : Prop where
  maxSize : changed.maxSize = tree.maxSize
  usedSize : changed.usedSize + old = tree.usedSize + new
  run : ∀ free, e (tree.withFree free) =
    if old + free < new then .error (.noSpace (new - old)) (tree.withFree free)
    else .ok a (changed.withFree (old + free - new))

/-- The edit fails, however much space is free. -/
structure Refused (e : Edit α) (tree : Tree) (err : TreeError) : Prop where
  ne_noSpace : ∀ needed, err ≠ .noSpace needed
  run : ∀ free, e (tree.withFree free) = .error err (tree.withFree free)

def Measured (e : Edit α) : Prop := ∀ tree,
  (∃ err, e.Refused tree err) ∨ ∃ old new a changed, e.Costs tree old new a changed

variable {e : Edit α} {tree after : Tree} {a : α} {err : TreeError}

theorem Costs.eq {old new : Nat} {changed : Tree} (h : e.Costs tree old new a changed) : e tree =
    if old + tree.free < new then .error (.noSpace (new - old)) tree
    else .ok a (changed.withFree (old + tree.free - new)) := h.run tree.free

theorem Refused.eq (h : e.Refused tree err) : e tree = .error err tree := h.run tree.free

/-- An edit that succeeds leaves the size of the tree as it was, and the same blocks with as much
more space behind them as there was more of it before. -/
theorem Measured.ok (h : e.Measured) (hok : e tree = .ok a after) :
    after.totalSize = tree.totalSize ∧ after.maxSize = tree.maxSize ∧
      ∀ k, e (tree.withFree (tree.free + k)) = .ok a (after.withFree (after.free + k)) := by
  rcases h tree with ⟨err, hrefused⟩ | ⟨old, new, b, changed, hcosts⟩
  · rw [hrefused.eq] at hok
    cases hok
  · rw [hcosts.eq] at hok
    split at hok
    · cases hok
    · rename_i hroom
      cases hok
      have hused := hcosts.usedSize
      refine ⟨?_, hcosts.maxSize, ?_⟩
      · change changed.usedSize + (old + tree.free - new) = tree.usedSize + tree.free
        omega
      · intro k
        rw [hcosts.run, if_neg (by omega)]
        change _ = EStateM.Result.ok a (changed.withFree (old + tree.free - new + k))
        rw [← Nat.sub_add_comm (Nat.le_of_not_lt hroom), Nat.add_assoc]

/-- An edit that fails changes nothing. If it does not lack space then it also fails with more. -/
theorem Measured.error (h : e.Measured) (herror : e tree = .error err after) :
    after = tree ∧ ((∀ needed, err ≠ .noSpace needed) →
      ∀ free, e (tree.withFree free) = .error err (tree.withFree free)) := by
  rcases h tree with ⟨err', hrefused⟩ | ⟨old, new, b, changed, hcosts⟩
  · rw [hrefused.eq] at herror
    cases herror
    exact ⟨rfl, fun _ => hrefused.run⟩
  · rw [hcosts.eq] at herror
    split at herror
    · cases herror
      exact ⟨rfl, fun hspace => absurd rfl (hspace _)⟩
    · cases herror

/-- An edit that lacks space says how much it needs: with that much it succeeds, and with less it
lacks it again. -/
theorem Measured.noSpace (h : e.Measured) {needed : Nat}
    (herror : e tree = .error (.noSpace needed) after) :
    tree.free < needed ∧ ∀ free,
      (needed ≤ free → ∃ a done, e (tree.withFree free) = .ok a done) ∧
      (free < needed → e (tree.withFree free) = .error (.noSpace needed) (tree.withFree free)) := by
  rcases h tree with ⟨err, hrefused⟩ | ⟨old, new, b, changed, hcosts⟩
  · rw [hrefused.eq] at herror
    cases herror
    exact absurd rfl (hrefused.ne_noSpace needed)
  · rw [hcosts.eq] at herror
    split at herror
    · cases herror
      refine ⟨by omega, fun free => ⟨fun henough => ?_, fun hlacks => ?_⟩⟩
      · rw [hcosts.run, if_neg (by omega)]
        exact ⟨_, _, rfl⟩
      · rw [hcosts.run, if_pos (by omega)]
    · cases herror

end Edit

namespace Tree

/-! ## Looking for a property and for the place of a new one -/

theorem exists_propertiesEndFrom {strings name : Bytes} {offset : Nat} {tokens : Bytes}
    (h : propertyFrom strings name offset tokens = .ok none) :
    ∃ place, propertiesEndFrom offset tokens = .ok place := by
  fun_induction propertyFrom strings name offset tokens with
  | case1 | case2 | case3 => cases h
  | case4 offset tokens nameOffset value hread found hfound hne size ih =>
    obtain ⟨place, hplace⟩ := ih h
    refine ⟨place, ?_⟩
    rw [propertiesEndFrom]
    split <;> rename_i heq <;> rw [hread] at heq <;> cases heq
    · exact hplace
    · rename_i hproperty _
      exact absurd rfl (hproperty _ _)
  | case5 offset tokens hread ih =>
    obtain ⟨place, hplace⟩ := ih h
    refine ⟨place, ?_⟩
    rw [propertiesEndFrom]
    split <;> rename_i heq <;> rw [hread] at heq <;> cases heq
    · exact hplace
    · rename_i hnop
      exact absurd rfl hnop
  | case6 offset tokens token hproperty hnop hread =>
    refine ⟨offset, ?_⟩
    rw [propertiesEndFrom]
    split <;> rename_i heq <;> rw [hread] at heq <;> cases heq
    · exact absurd rfl (hproperty _ _)
    · exact absurd rfl hnop

theorem exists_propertiesEnd {tree : Tree} {node : NodeRef} {name : Bytes}
    (h : tree.property? node name = .ok none) : ∃ place, tree.propertiesEnd node = .ok place := by
  unfold property? at h
  unfold propertiesEnd
  cases henter : tree.enter node with
  | error e =>
    rw [henter] at h
    cases h
  | ok entered =>
    rw [henter] at h
    exact exists_propertiesEndFrom h

/-! ## Queries never ask for space -/

section Queries

variable {tree : Tree} {node : NodeRef} {needed : Nat}

theorem enter_ne_noSpace : tree.enter node ≠ .error (.noSpace needed) := by
  unfold enter
  split <;> rintro ⟨⟩

theorem propertyFrom_ne_noSpace {strings name : Bytes} {offset : Nat} {tokens : Bytes} :
    propertyFrom strings name offset tokens ≠ .error (.noSpace needed) := by
  fun_induction propertyFrom strings name offset tokens with
  | case1 | case2 | case3 | case6 => rintro ⟨⟩
  | case4 offset tokens nameOffset value hread found hfound hne size ih => exact ih
  | case5 offset tokens hread ih => exact ih

theorem property?_ne_noSpace {name : Bytes} :
    tree.property? node name ≠ .error (.noSpace needed) := by
  unfold property?
  cases henter : tree.enter node with
  | error e =>
    rintro ⟨⟩
    exact enter_ne_noSpace henter
  | ok entered => exact propertyFrom_ne_noSpace

theorem propertiesEndFrom_ne_noSpace {offset : Nat} {tokens : Bytes} :
    propertiesEndFrom offset tokens ≠ .error (.noSpace needed) := by
  fun_induction propertiesEndFrom offset tokens with
  | case1 | case4 => rintro ⟨⟩
  | case2 offset tokens nameOffset value hread size ih => exact ih
  | case3 offset tokens hread ih => exact ih

theorem propertiesEnd_ne_noSpace : tree.propertiesEnd node ≠ .error (.noSpace needed) := by
  unfold propertiesEnd
  cases henter : tree.enter node with
  | error e =>
    rintro ⟨⟩
    exact enter_ne_noSpace henter
  | ok entered => exact propertiesEndFrom_ne_noSpace

theorem nodeName_ne_noSpace : tree.nodeName node ≠ .error (.noSpace needed) := by
  unfold nodeName
  cases henter : tree.enter node with
  | error e =>
    rintro ⟨⟩
    exact enter_ne_noSpace henter
  | ok entered =>
    change (if Bytes.isText entered.1 then (pure entered.1 : Except TreeError Bytes)
      else throw (.badStructure (node.offset + 4))) ≠ _
    split <;> rintro ⟨⟩

theorem nextFrom_ne_noSpace {offset : Nat} {tokens : Bytes} {depth : Int} :
    nextFrom offset tokens depth ≠ .error (.noSpace needed) := by
  fun_induction nextFrom offset tokens depth with
  | case1 | case2 | case3 | case4 => rintro ⟨⟩
  | case5 offset tokens depth hread hdepth ih => exact ih
  | case6 offset tokens depth hread ih => exact ih
  | case7 offset tokens depth nameOffset value hread size ih => exact ih

theorem next_ne_noSpace {depth : Int} : tree.next node depth ≠ .error (.noSpace needed) := by
  unfold next
  cases henter : tree.enter node with
  | error e =>
    rintro ⟨⟩
    exact enter_ne_noSpace henter
  | ok entered => exact nextFrom_ne_noSpace

theorem failure_walkFrom_ne_noSpace {depth : Int} :
    (tree.walkFrom node depth).failure ≠ some (.noSpace needed) := by
  fun_induction walkFrom tree node depth with
  | case1 node depth e hnext =>
    rintro ⟨⟩
    exact next_ne_noSpace hnext
  | case2 => rintro ⟨⟩
  | case3 node depth found d hnext ih => exact ih

theorem find?_ne_noSpace {walk : Walk} {accept : NodeRef → Int → Except TreeError Bool}
    (hwalk : walk.failure ≠ some (.noSpace needed))
    (haccept : ∀ node depth, accept node depth ≠ .error (.noSpace needed)) :
    walk.find? accept ≠ .error (.noSpace needed) := by
  unfold Walk.find?
  fun_induction Walk.find?.go walk accept walk.nodes with
  | case1 | case4 => rintro ⟨⟩
  | case2 e hfailure =>
    rintro ⟨⟩
    exact hwalk hfailure
  | case3 node depth rest e herror =>
    rintro ⟨⟩
    exact haccept node depth herror
  | case5 node depth rest hrejected ih => exact ih

theorem namesake?_ne_noSpace {name : Bytes} :
    tree.namesake? node name ≠ .error (.noSpace needed) := by
  have hfind : (tree.walkFrom node 0).find? (fun node depth =>
      if depth = 1 then (tree.nodeName node).map fun found => decide (found = name)
      else .ok false) ≠ .error (.noSpace needed) := by
    refine find?_ne_noSpace failure_walkFrom_ne_noSpace ?_
    intro child depth
    split
    · cases hname : tree.nodeName child with
      | error e =>
        rintro ⟨⟩
        exact nodeName_ne_noSpace hname
      | ok found => rintro ⟨⟩
    · rintro ⟨⟩
  unfold namesake?
  intro herror
  apply hfind
  generalize Walk.find? _ _ = found at herror ⊢
  cases found with
  | error e =>
    cases herror
    rfl
  | ok found => cases herror

end Queries

/-! ## Edit by edit -/

variable {tree : Tree} {offset old : Nat} {new : Bytes}

theorem usedSize_withName (name : Bytes) :
    (tree.withName name).usedSize = tree.usedSize + tree.nameCost name := by
  unfold withName nameCost
  split
  · rfl
  · simp only [usedSize, stringsOffset, structOffset, Strings.append, List.length_append,
      List.length_singleton]
    omega

theorem maxSize_withName (name : Bytes) : (tree.withName name).maxSize = tree.maxSize := by
  unfold withName
  split <;> rfl

theorem withName_withFree (free : Nat) (name : Bytes) :
    (tree.withFree free).withName name =
      (tree.withName name).withFree (free - tree.nameCost name) := by
  unfold withName nameCost
  change (if (Strings.find? tree.strings name).isSome then _ else _) = _
  split <;> rfl

theorem costs_reserve (entry : Reservation) : Edit.Costs (reserve entry) tree 0 entrySize ()
    { tree with reservations := tree.reservations ++ [entry] } := by
  refine ⟨rfl, ?_, ?_⟩
  · simp only [usedSize, stringsOffset, structOffset, List.length_append, List.length_singleton,
      Nat.mul_succ]
    omega
  · intro free
    rw [Nat.zero_add]
    rfl

theorem measured_reserve (entry : Reservation) : Edit.Measured (reserve entry) :=
  fun _ => .inr ⟨_, _, _, _, costs_reserve entry⟩

theorem costs_spliceStruct (hin : offset + old ≤ tree.structBlock.length) :
    Edit.Costs (spliceStruct offset old new) tree old new.length () (tree.spliced offset old new) :=
  ⟨rfl, usedSize_spliced hin, fun _ => rfl⟩

theorem measured_setValue (node : NodeRef) (name value : Bytes) :
    Edit.Measured (setValue node name value) := by
  intro tree
  have hfind (free : Nat) :
      (tree.withFree free).property? node name = tree.property? node name := rfl
  cases hfound : tree.property? node name with
  | error err =>
    refine .inl ⟨err, ?_, ?_⟩
    · rintro needed rfl
      exact property?_ne_noSpace hfound
    · intro free
      rw [setValue_eq, hfind, hfound]
  | ok found =>
    right
    cases found with
    | some found =>
      have hcosts := @costs_spliceStruct tree found.offset found.token.size
        (Token.property found.nameOffset value).encode (le_of_property? hfound)
      refine ⟨_, _, (), _, hcosts.maxSize, hcosts.usedSize, ?_⟩
      intro free
      rw [setValue_eq, hfind, hfound]
      exact hcosts.run free
    | none =>
      obtain ⟨offset, hend⟩ := exists_propertiesEnd hfound
      let token := Token.property (UInt32.ofNat (tree.nameOffset name)) value
      have hlength : token.encode.length = propertyCost value := length_property_encode _ _
      have hin : offset + 0 ≤ (tree.withName name).structBlock.length := by
        rw [structBlock_withName]
        exact le_of_propertiesEnd hend
      refine ⟨0, propertyCost value + tree.nameCost name, (),
        (tree.withName name).spliced offset 0 token.encode, maxSize_withName name, ?_, ?_⟩
      · rw [usedSize_spliced hin, usedSize_withName, hlength]
        omega
      · intro free
        have hcost : (tree.withFree free).nameCost name = tree.nameCost name := rfl
        have hplace : (tree.withFree free).propertiesEnd node = tree.propertiesEnd node := rfl
        have hoffset : (tree.withFree free).nameOffset name = tree.nameOffset name := rfl
        have hleft : free - tree.nameCost name - token.encode.length =
            free - (propertyCost value + tree.nameCost name) := by omega
        rw [setValue_eq, hfind, hfound]
        dsimp only
        rw [appendProperty_eq, hcost, hplace, hend, hoffset, withName_withFree]
        simp only [spliced, withFree, Nat.zero_add, Nat.sub_zero, token, hleft]

theorem costs_addChild {parent : NodeRef} {name : Bytes} {offset : Nat}
    (hname : isNodeName name = true) (hfound : tree.namesake? parent name = .ok none)
    (hend : tree.propertiesEnd parent = .ok offset) :
    Edit.Costs (addChild parent name) tree 0 (emptyNode name).length ⟨offset⟩
      (tree.spliced offset 0 (emptyNode name)) := by
  have hin : offset + 0 ≤ tree.structBlock.length := le_of_propertiesEnd hend
  refine ⟨rfl, usedSize_spliced hin, ?_⟩
  intro free
  have hplace : (tree.withFree free).propertiesEnd parent = .ok offset := hend
  rw [addChild_eq, if_pos hname, namesake?_withFree, hfound, hplace]
  simp only [spliced, withFree, Nat.zero_add, Nat.sub_zero]

theorem measured_addChild (parent : NodeRef) (name : Bytes) :
    Edit.Measured (addChild parent name) := by
  intro tree
  have hplace (free : Nat) :
      (tree.withFree free).propertiesEnd parent = tree.propertiesEnd parent := rfl
  by_cases hname : isNodeName name = true
  swap
  · refine .inl ⟨.badName, by rintro _ ⟨⟩, ?_⟩
    intro free
    rw [addChild_eq, if_neg hname]
  cases hfound : tree.namesake? parent name with
  | error err =>
    refine .inl ⟨err, ?_, ?_⟩
    · rintro needed rfl
      exact namesake?_ne_noSpace hfound
    · intro free
      rw [addChild_eq, if_pos hname, namesake?_withFree, hfound]
  | ok found =>
    cases found with
    | some child =>
      refine .inl ⟨.alreadyExists, by rintro _ ⟨⟩, ?_⟩
      intro free
      rw [addChild_eq, if_pos hname, namesake?_withFree, hfound]
    | none =>
      cases hend : tree.propertiesEnd parent with
      | error err =>
        refine .inl ⟨err, ?_, ?_⟩
        · rintro needed rfl
          exact propertiesEnd_ne_noSpace hend
        · intro free
          rw [addChild_eq, if_pos hname, namesake?_withFree, hfound, hplace, hend]
      | ok offset =>
        exact .inr ⟨_, _, _, _, costs_addChild hname hfound hend⟩

end Tree

end BootTree
