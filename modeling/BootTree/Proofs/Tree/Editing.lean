import BootTree.Proofs.Blob.Strings
import BootTree.Tree.Edit

/-!
# BootTree.Proofs.Tree.Editing

What the edits of a tree come to, as equations. An edit asks the tree where to put its bytes and
then replaces a stretch of the structure block; the name of a new property goes into the strings
block first.

* `Tree.nameOffset`, `Tree.nameCost`, `Tree.withName`: where the name of a new property starts, how
  many bytes it costs, and the tree with that name in its strings block.
* `Tree.setValue_eq`, `Tree.appendProperty_eq`, `Tree.addChild_eq`: the edits, case by case.
* `Tree.withFree`: more or less free space, which no query looks at; `Tree.MayGrow`: whether there
  may be more of it.
* `Tree.walkFrom_congr`, `Tree.namesake?_congr`: walks look at nothing but the structure block.
-/

namespace BootTree

open Blob

namespace Edit

variable {α β σ : Type} {s s' : σ} {x : EStateM TreeError σ α} {tree : Tree}

theorem bind_of_ok {a : α} (h : x s = .ok a s') (f : α → EStateM TreeError σ β) :
    (x >>= f) s = f a s' := by
  simp only [bind, EStateM.bind, h]

theorem bind_of_error {e : TreeError} (h : x s = .error e s') (f : α → EStateM TreeError σ β) :
    (x >>= f) s = .error e s' := by
  simp only [bind, EStateM.bind, h]

theorem get_bind (f : σ → EStateM TreeError σ β) : (get >>= f) s = f s s := rfl

theorem modify_bind (change : σ → σ) (f : Unit → EStateM TreeError σ β) :
    (modify change >>= f) s = f () (change s) := rfl

theorem ask_bind (query : Tree → Except TreeError α) (f : α → Edit β) :
    (ask query >>= f) tree =
      match query tree with
      | .ok a => f a tree
      | .error e => .error e tree := by
  simp only [bind, EStateM.bind, ask]
  cases query tree <;> rfl

end Edit

namespace Tree

/-- Where the name of a new property starts in the strings block. -/
def nameOffset (tree : Tree) (name : Bytes) : Nat :=
  (Strings.find? tree.strings name).getD tree.strings.length

/-- How many bytes of free space the name of a new property takes. -/
def nameCost (tree : Tree) (name : Bytes) : Nat :=
  if (Strings.find? tree.strings name).isSome then 0 else name.length + 1

def withName (tree : Tree) (name : Bytes) : Tree :=
  if (Strings.find? tree.strings name).isSome then tree
  else { tree with
    strings := Strings.append tree.strings name
    free := tree.free - (name.length + 1) }

def propertyCost (value : Bytes) : Nat := Token.propertyHead + Bytes.alignUp value.length

def spliced (tree : Tree) (offset old : Nat) (new : Bytes) : Tree :=
  { tree with
    structBlock := Bytes.splice tree.structBlock offset old new
    free := old + tree.free - new.length }

/-! ## Edits as equations -/

variable (tree : Tree)

theorem spliceStruct_eq (offset old : Nat) (new : Bytes) :
    spliceStruct offset old new tree =
      if old + tree.free < new.length then .error (.noSpace (new.length - old)) tree
      else .ok () (tree.spliced offset old new) := rfl

theorem internName_eq {name : Bytes} (h : tree.nameCost name ≤ tree.free) :
    internName name tree = .ok (UInt32.ofNat (tree.nameOffset name)) (tree.withName name) := by
  unfold internName
  rw [Edit.get_bind]
  unfold nameCost at h
  unfold nameOffset withName
  cases hfind : Strings.find? tree.strings name with
  | some offset => rfl
  | none =>
    simp only [hfind, Option.isSome_none, Bool.false_eq_true, if_false] at h ⊢
    rw [appendName, if_neg (by omega)]
    rfl

@[simp] theorem structBlock_withName (name : Bytes) :
    (tree.withName name).structBlock = tree.structBlock := by
  unfold withName; split <;> rfl

theorem enter_withName (name : Bytes) (node : NodeRef) :
    (tree.withName name).enter node = tree.enter node := by
  rw [enter, enter, structBlock_withName]

theorem propertiesEnd_withName (name : Bytes) (node : NodeRef) :
    (tree.withName name).propertiesEnd node = tree.propertiesEnd node := by
  rw [propertiesEnd, propertiesEnd, enter_withName, structBlock_withName]

theorem free_withName {name : Bytes} (h : tree.nameCost name ≤ tree.free) :
    (tree.withName name).free + tree.nameCost name = tree.free := by
  unfold nameCost at *
  unfold withName
  cases hfind : Strings.find? tree.strings name with
  | some offset => simp
  | none =>
    simp only [hfind, Option.isSome_none, Bool.false_eq_true, if_false] at h ⊢
    omega

theorem length_property_encode (o : UInt32) (value : Bytes) :
    (Token.property o value).encode.length = propertyCost value := by
  rw [Token.length_encode, Token.size, propertyCost, Bytes.alignUp_add rfl]

theorem appendProperty_eq (node : NodeRef) (name value : Bytes) :
    appendProperty node name value tree =
      if tree.free < propertyCost value + tree.nameCost name then
        .error (.noSpace (propertyCost value + tree.nameCost name)) tree
      else
        match tree.propertiesEnd node with
        | .error e => .error e (tree.withName name)
        | .ok offset => .ok () ((tree.withName name).spliced offset 0
            (Token.property (UInt32.ofNat (tree.nameOffset name)) value).encode) := by
  have hget : appendProperty node name value tree =
      (if tree.free < propertyCost value + tree.nameCost name then
        (throw (.noSpace (propertyCost value + tree.nameCost name)) : Edit Unit)
      else do
        let nameOffset ← internName name
        let offset ← Edit.ask (·.propertiesEnd node)
        spliceStruct offset 0 (Token.property nameOffset value).encode) tree := by
    unfold appendProperty
    rfl
  rw [hget]
  by_cases hfree : tree.free < propertyCost value + tree.nameCost name
  · rw [if_pos hfree, if_pos hfree]; rfl
  · have hname : tree.nameCost name ≤ tree.free := by omega
    have hleft := tree.free_withName hname
    rw [if_neg hfree, if_neg hfree, Edit.bind_of_ok (tree.internName_eq hname), Edit.ask_bind,
      propertiesEnd_withName]
    cases tree.propertiesEnd node with
    | error e => rfl
    | ok offset =>
      dsimp only
      rw [spliceStruct_eq, length_property_encode, if_neg (by omega)]

/-- Creating or replacing a property, whatever the tree holds. -/
theorem setValue_eq (node : NodeRef) (name value : Bytes) :
    setValue node name value tree =
      match tree.property? node name with
      | .error e => .error e tree
      | .ok (some old) =>
        spliceStruct old.offset old.token.size (Token.property old.nameOffset value).encode tree
      | .ok none => appendProperty node name value tree := by
  unfold setValue
  rw [Edit.ask_bind]
  cases tree.property? node name with
  | error e => rfl
  | ok found => cases found <;> rfl

/-- Inserting an empty node, whatever the tree holds. -/
theorem addChild_eq (parent : NodeRef) (name : Bytes) :
    addChild parent name tree =
      if isNodeName name then
        match tree.namesake? parent name with
        | .error e => .error e tree
        | .ok (some _) => .error .alreadyExists tree
        | .ok none =>
          match tree.propertiesEnd parent with
          | .error e => .error e tree
          | .ok offset =>
            if tree.free < (emptyNode name).length then
              .error (.noSpace (emptyNode name).length) tree
            else .ok ⟨offset⟩ (tree.spliced offset 0 (emptyNode name))
      else .error .badName tree := by
  unfold addChild
  by_cases hname : isNodeName name = true
  · rw [if_pos hname, if_pos hname]
    change (Edit.ask (·.namesake? parent name) >>= _) tree = _
    rw [Edit.ask_bind]
    cases tree.namesake? parent name with
    | error e => rfl
    | ok found =>
      cases found with
      | some child => rfl
      | none =>
        change (Edit.ask (·.propertiesEnd parent) >>= _) tree = _
        rw [Edit.ask_bind]
        cases tree.propertiesEnd parent with
        | error e => rfl
        | ok offset =>
          dsimp only
          have hsplice := tree.spliceStruct_eq offset 0 (emptyNode name)
          rw [Nat.zero_add, Nat.sub_zero] at hsplice
          split at hsplice
          · rename_i hfree
            rw [if_pos hfree, Edit.bind_of_error hsplice]
          · rename_i hfree
            rw [if_neg hfree, Edit.bind_of_ok hsplice]
            rfl
  · rw [if_neg hname, if_neg hname]
    rfl

/-! ## Free space -/

/-- The tree with this much free space. -/
def withFree (free : Nat) : Tree := { tree with free }

/-- The limit of the size, if there is one, allows this much more space. -/
def MayGrow (increment : Nat) : Prop :=
  ∀ limit, tree.maxSize = some limit → tree.totalSize + increment ≤ limit

section Growing

variable {tree} {increment : Nat}

theorem mayGrow_of_unlimited (h : tree.maxSize = none) : tree.MayGrow increment := by
  intro limit hlimit
  rw [h] at hlimit
  cases hlimit

theorem totalSize_grown :
    (tree.withFree (tree.free + increment)).totalSize = tree.totalSize + increment :=
  (Nat.add_assoc ..).symm

theorem grow_of_mayGrow (h : tree.MayGrow increment) :
    grow increment tree = .ok () (tree.withFree (tree.free + increment)) := by
  rw [grow]
  cases hmax : tree.maxSize with
  | none => simp only [withFree, hmax]
  | some limit =>
    dsimp only
    rw [if_neg (Nat.not_lt.2 (h limit hmax)), withFree, hmax]

theorem grow_of_not_mayGrow (h : ¬ tree.MayGrow increment) :
    ∃ limit, tree.maxSize = some limit ∧ limit < tree.totalSize + increment ∧
      grow increment tree = .error (.sizeLimit (tree.totalSize + increment) limit) tree := by
  simp only [MayGrow, not_forall, Nat.not_le] at h
  obtain ⟨limit, hmax, hlimit⟩ := h
  refine ⟨limit, hmax, hlimit, ?_⟩
  rw [grow, hmax]
  exact if_pos hlimit

end Growing

theorem grow_cases (increment : Nat) :
    (∃ e, grow increment tree = .error e tree) ∨
      grow increment tree = .ok () (tree.withFree (tree.free + increment)) := by
  by_cases h : tree.MayGrow increment
  · exact .inr (grow_of_mayGrow h)
  · obtain ⟨limit, -, -, hgrow⟩ := grow_of_not_mayGrow h
    exact .inl ⟨_, hgrow⟩

/-! ## Walks -/

variable {tree} {tree' : Tree}

theorem next_congr (h : tree'.structBlock = tree.structBlock) (node : NodeRef) (depth : Int) :
    tree'.next node depth = tree.next node depth := by
  rw [next, next, enter, enter, h]

theorem walkFrom_congr (h : tree'.structBlock = tree.structBlock) (node : NodeRef) (depth : Int) :
    tree'.walkFrom node depth = tree.walkFrom node depth := by
  fun_induction walkFrom tree node depth with
  | case1 node depth e hnext =>
    rw [walkFrom]
    split <;> rename_i heq <;> rw [next_congr h, hnext] at heq <;> cases heq
    rfl
  | case2 node depth hnext =>
    rw [walkFrom]
    split <;> rename_i heq <;> rw [next_congr h, hnext] at heq <;> cases heq
  | case3 node depth found d hnext ih =>
    rw [walkFrom]
    split <;> rename_i heq <;> rw [next_congr h, hnext] at heq <;> cases heq
    rw [ih]

theorem namesake?_congr (h : tree'.structBlock = tree.structBlock) (parent : NodeRef)
    (name : Bytes) : tree'.namesake? parent name = tree.namesake? parent name := by
  have hname (node : NodeRef) : tree'.nodeName node = tree.nodeName node := by
    rw [nodeName, nodeName, enter, enter, h]
  simp only [namesake?, walkFrom_congr h, hname]

theorem namesake?_withFree (free : Nat) (parent : NodeRef) (name : Bytes) :
    (tree.withFree free).namesake? parent name = tree.namesake? parent name :=
  namesake?_congr (by rfl) parent name

end Tree

end BootTree
