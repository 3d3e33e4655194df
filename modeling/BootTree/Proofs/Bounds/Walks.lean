import BootTree.Proofs.Bounds.Checked

/-!
# BootTree.Proofs.Bounds.Walks

Walks that check what they count. A token is only read where all of it is there, so going from token
to token cannot leave the block; but the depth of a node is a signed 32-bit word. A walk for which
subtrees do not matter counts nothing.

* `Checked.scan`: the next node, with a depth or without one.
* `Checked.search`: the first node of a walk that is accepted.
* `Steady`: the depths that a search counts, which stay far below a word on blocks below 2³² bytes.
-/

namespace BootTree

open Blob

variable {α : Type} {tree : Tree} {node : NodeRef} {name : Bytes}

/-! ## What a walk passes over -/

namespace Tree

theorem le_of_enter {offset : Nat} (h : tree.enter node = .ok (name, offset)) :
    node.offset + 8 ≤ offset := by
  unfold enter at h
  split at h
  · cases h
    have := Bytes.le_alignUp (name.length + 1)
    rw [Token.size, Bytes.alignUp_add rfl]
    have hmod := Bytes.alignUp_mod (name.length + 1)
    omega
  · cases h

/-- The depth rises by one where a node begins and falls by one for every node that ended before. -/
theorem depth_of_nextFrom {offset : Nat} {tokens : Bytes} {depth d : Int} {found : NodeRef}
    (h : nextFrom offset tokens depth = .ok (some (found, d))) :
    offset ≤ found.offset ∧ d ≤ depth + 1 ∧ depth + offset ≤ d + found.offset ∧
      (0 ≤ depth → 0 ≤ d) := by
  fun_induction nextFrom offset tokens depth with
  | case1 | case3 | case4 => cases h
  | case2 offset tokens depth name hread =>
    cases h
    dsimp only
    omega
  | case5 offset tokens depth hread hdepth ih =>
    have := ih h
    simp only [Token.size] at this
    omega
  | case6 offset tokens depth hread ih =>
    have := ih h
    omega
  | case7 offset tokens depth nameOffset value hread size ih =>
    have := ih h
    omega

theorem depth_of_next {depth d : Int} {found : NodeRef}
    (h : tree.next node depth = .ok (some (found, d))) :
    node.offset + 8 ≤ found.offset ∧ d ≤ depth + 1 ∧ depth + node.offset ≤ d + found.offset ∧
      (0 ≤ depth → 0 ≤ d) := by
  unfold next at h
  split at h
  · cases h
  · rename_i henter
    have := le_of_enter henter
    have := depth_of_nextFrom h
    omega

end Tree

theorem Tree.Walk.find?_prepend (walk : Walk) (node : NodeRef) (depth : Int)
    (accept : NodeRef → Int → Except TreeError Bool) :
    (walk.prepend node depth).find? accept =
      match accept node depth with
      | .error e => .error e
      | .ok true => .ok (some (node, depth))
      | .ok false => walk.find? accept := by
  have hgo (nodes : List (NodeRef × Int)) :
      Walk.find?.go (walk.prepend node depth) accept nodes = Walk.find?.go walk accept nodes := by
    induction nodes with
    | nil => rfl
    | cons entry rest ih =>
      rw [Walk.find?.go, Walk.find?.go, ih]
  rw [Walk.find?, prepend, Walk.find?.go]
  rcases accept node depth with e | accepted
  · rfl
  · cases accepted with
    | true => rfl
    | false => exact hgo walk.nodes

namespace Checked

/-! ## Walks -/

/-- A depth that is counted moves by `change`. -/
def deepen (change : Int) : Option Int → Checked (Option Int)
  | none => pure none
  | some d => do return some (← access (signed? (d + change)))

/-- The first node that begins in tokens starting at `offset`. -/
def scanFrom (offset : Nat) (tokens : Bytes) (depth : Option Int) :
    Checked (Option (NodeRef × Option Int)) :=
  match _h : Token.read? tokens with
  | none => fail (.badStructure offset)
  | some (.beginNode _) => do return some (⟨offset⟩, ← deepen 1 depth)
  | some .finish => pure none
  | some .endNode => do
    let lowered ← deepen (-1) depth
    if lowered.any (· < 0) then return none
    else scanFrom (offset + Token.endNode.size) (tokens.drop Token.endNode.size) lowered
  | some .nop => scanFrom (offset + Token.nop.size) (tokens.drop Token.nop.size) depth
  | some (.property nameOffset value) =>
    let size := (Token.property nameOffset value).size
    scanFrom (offset + size) (tokens.drop size) depth
termination_by tokens.length
decreasing_by all_goals exact Token.length_drop_lt_of_read? _h

def scan (tree : Tree) (node : NodeRef) (depth : Option Int) :
    Checked (Option (NodeRef × Option Int)) := do
  let (_, offset) ← of (tree.enter node)
  scanFrom offset (tree.structBlock.drop offset) depth

/-- What a walk counts if the walk of the tree counts `d` with `room` bytes before it: the same, with
a word to spare on both sides, or nothing at all, which is counting from so high up that the walk
never leaves a subtree. -/
def Counts (room : Nat) (d : Int) : Option Int → Prop
  | some depth => depth = d ∧ -2 ^ 31 < d ∧ d < 2 ^ 31 - 1
  | none => (room : Int) ≤ d

/-- An answer of a walk of the tree, with the depths that `depth` counts. -/
def counted (depth : Option Int) (found : Option (NodeRef × Int)) :
    Option (NodeRef × Option Int) :=
  found.map fun (node, d) => (node, depth.map fun _ => d)

theorem deepen_some {d change : Int} (h : -2 ^ 31 ≤ d + change ∧ d + change < 2 ^ 31) :
    deepen change (some d) = pure (some (d + change)) :=
  access_bind (signed?_of_le h) _

/-- One token of a scan. -/
theorem scanFrom_of_read {offset : Nat} {tokens : Bytes} {depth : Option Int} {token : Token}
    (h : Token.read? tokens = some token) :
    scanFrom offset tokens depth =
      match token with
      | .beginNode _ => do return some (⟨offset⟩, ← deepen 1 depth)
      | .finish => pure none
      | .endNode => do
        let lowered ← deepen (-1) depth
        if lowered.any (· < 0) then return none
        else scanFrom (offset + token.size) (tokens.drop token.size) lowered
      | .nop | .property _ _ => scanFrom (offset + token.size) (tokens.drop token.size) depth := by
  rw [scanFrom]
  split <;> rename_i heq <;> rw [h] at heq <;> cases heq <;> rfl

/-- The depth where a node ends. Whether it falls below zero is seen in the walk of the tree, since a
walk that counts nothing has not come down to zero while there are bytes left. -/
theorem Counts.exists_lowered {room : Nat} {depth : Option Int} {d : Int} (h : Counts room d depth)
    (hroom : 0 < room) :
    ∃ lowered, deepen (-1) depth = pure lowered ∧ lowered.any (· < 0) = decide (d ≤ 0) ∧
      counted lowered = counted depth ∧ (0 < d → Counts (room - 1) (d - 1) lowered) := by
  cases depth with
  | none =>
    have hhigh : (room : Int) ≤ d := h
    refine ⟨none, rfl, (decide_eq_false (by omega)).symm, rfl, ?_⟩
    intro _
    change ((room - 1 : Nat) : Int) ≤ d - 1
    omega
  | some depth =>
    obtain ⟨rfl, hlow, hhigh⟩ := h
    refine ⟨some (depth - 1), deepen_some (by omega), ?_, rfl, fun _ => ⟨rfl, by omega, by omega⟩⟩
    exact decide_eq_decide.2 (by omega)

theorem Counts.mono {room room' : Nat} {depth : Option Int} {d : Int} (h : Counts room d depth)
    (hroom : room' ≤ room) : Counts room' d depth := by
  cases depth with
  | none =>
    have hhigh : (room : Int) ≤ d := h
    change (room' : Int) ≤ d
    omega
  | some depth => exact h

theorem scanFrom_eq {offset : Nat} {tokens : Bytes} {depth : Option Int} {d : Int}
    (h : Counts tokens.length d depth) :
    scanFrom offset tokens depth = of ((Tree.nextFrom offset tokens d).map (counted depth)) := by
  have shorter {size : Nat} {tokens : Bytes} : (tokens.drop size).length ≤ tokens.length := by
    rw [List.length_drop]
    exact Nat.sub_le _ _
  fun_induction Tree.nextFrom offset tokens d generalizing depth with
  | case1 offset tokens d hread =>
    rw [scanFrom]
    split <;> rename_i heq <;> rw [hread] at heq <;> cases heq
    rfl
  | case2 offset tokens d name hread =>
    rw [scanFrom_of_read hread]
    cases depth with
    | none => rfl
    | some depth =>
      obtain ⟨rfl, hlow, hhigh⟩ := h
      dsimp only
      rw [deepen_some (by omega)]
      rfl
  | case3 offset tokens d hread =>
    rw [scanFrom_of_read hread]
    rfl
  | case4 offset tokens d hread hend =>
    have hsize := Token.size_le_of_read? hread
    obtain ⟨lowered, hlowered, hbelow, -, -⟩ := h.exists_lowered (Nat.lt_of_lt_of_le (by decide) hsize)
    rw [scanFrom_of_read hread]
    dsimp only
    rw [hlowered]
    change (if lowered.any (· < 0) = true then _ else _) = _
    rw [if_pos (by rw [hbelow, decide_eq_true hend])]
    rfl
  | case5 offset tokens d hread hend ih =>
    have hsize := Token.size_le_of_read? hread
    obtain ⟨lowered, hlowered, hbelow, hcounted, hlower⟩ :=
      h.exists_lowered (Nat.lt_of_lt_of_le (by decide) hsize)
    rw [scanFrom_of_read hread]
    dsimp only
    rw [hlowered]
    change (if lowered.any (· < 0) = true then _ else _) = _
    rw [if_neg (by rw [hbelow, decide_eq_true_iff]; exact hend), ← hcounted]
    refine ih ((hlower (Int.lt_of_not_ge hend)).mono ?_)
    rw [List.length_drop]
    exact Nat.sub_le_sub_left (by decide) _
  | case6 offset tokens d hread ih =>
    rw [scanFrom_of_read hread]
    exact ih (h.mono shorter)
  | case7 offset tokens d nameOffset value hread size =>
    rename_i ih
    rw [scanFrom_of_read hread]
    exact ih (h.mono shorter)

theorem scan_eq {depth : Option Int} {d : Int}
    (h : Counts (tree.structBlock.length - node.offset) d depth) :
    scan tree node depth = of ((tree.next node d).map (counted depth)) := by
  unfold scan Tree.next
  cases henter : tree.enter node with
  | error e => rfl
  | ok entered =>
    obtain ⟨name, offset⟩ := entered
    have := Tree.le_of_enter henter
    refine scanFrom_eq (h.mono ?_)
    rw [List.length_drop]
    omega

/-! ## Searches -/

theorem exists_of_bind {β : Type} {x : Checked α} {f : α → Checked β} {b : β}
    (h : (x >>= f) = of (.ok b)) : ∃ a, x = of (.ok a) ∧ f a = of (.ok b) := by
  match x, h with
  | of (.ok a), h => exact ⟨a, rfl, h⟩

theorem bounds_of_scanFrom {offset : Nat} {tokens : Bytes} {depth d : Option Int} {found : NodeRef}
    (h : scanFrom offset tokens depth = of (.ok (some (found, d)))) :
    offset ≤ found.offset ∧ found.offset < offset + tokens.length := by
  have step {token : Token} {tokens : Bytes} {offset : Nat} (hread : Token.read? tokens = some token)
      (ih : offset + token.size ≤ found.offset ∧
        found.offset < offset + token.size + (tokens.drop token.size).length) :
      offset ≤ found.offset ∧ found.offset < offset + tokens.length := by
    have := Token.size_le_of_read? hread
    rw [List.length_drop] at ih
    omega
  fun_induction scanFrom offset tokens depth with
  | case1 => cases h
  | case2 offset tokens depth name hread =>
    obtain ⟨raised, -, h⟩ := exists_of_bind h
    cases h
    have := Token.size_le_of_read? hread
    have := Token.four_le_size (.beginNode name)
    dsimp only
    omega
  | case3 => cases h
  | case4 offset tokens depth hread ih =>
    obtain ⟨lowered, -, h⟩ := exists_of_bind h
    split at h
    · cases h
    · exact step hread (ih lowered h)
  | case5 offset tokens depth hread ih => exact step hread (ih h)
  | case6 offset tokens depth nameOffset value hread size ih => exact step hread (ih h)

theorem bounds_of_scan {depth d : Option Int} {found : NodeRef}
    (h : scan tree node depth = of (.ok (some (found, d)))) :
    node.offset < found.offset ∧ found.offset < tree.structBlock.length := by
  obtain ⟨⟨name, offset⟩, henter, h⟩ := exists_of_bind h
  have h₁ := Tree.lt_of_enter (of.inj henter)
  have h₂ := bounds_of_scanFrom h
  rw [List.length_drop] at h₂
  omega

/-- The first node behind `node` that is accepted. -/
def search (tree : Tree) (accept : NodeRef → Option Int → Checked Bool) (node : NodeRef)
    (depth : Option Int) : Checked (Option NodeRef) :=
  match _h : scan tree node depth with
  | fault => fault
  | of (.error e) => fail e
  | of (.ok none) => pure none
  | of (.ok (some (found, d))) => do
    if ← accept found d then return some found else search tree accept found d
termination_by tree.structBlock.length - node.offset
decreasing_by
  have := bounds_of_scan _h
  omega

theorem search_of_scan {accept : NodeRef → Option Int → Checked Bool} {depth : Option Int}
    {answer : Except TreeError (Option (NodeRef × Option Int))}
    (h : scan tree node depth = of answer) :
    search tree accept node depth =
      match answer with
      | .error e => fail e
      | .ok none => pure none
      | .ok (some (found, d)) =>
        (do if ← accept found d then return some found else search tree accept found d) := by
  rw [search]
  split <;> rename_i heq <;> rw [h] at heq <;> cases heq <;> rfl

/-- What a search has met: the depths that it counts stay far below a word, since eight bytes of the
block were passed for every step down; without depths, the walk of the tree is so high up that it
never leaves a subtree. -/
def Steady (tree : Tree) (node : NodeRef) (d : Int) : Option Int → Prop
  | some depth => depth = d ∧ 0 ≤ d ∧ 8 * d ≤ node.offset
  | none => (tree.structBlock.length : Int) ≤ d + node.offset

theorem Steady.counts {depth : Option Int} {d : Int} (h : Steady tree node d depth)
    (hsize : tree.structBlock.length < 2 ^ 32) (hin : node.offset < tree.structBlock.length) :
    Counts (tree.structBlock.length - node.offset) d depth := by
  cases depth with
  | none =>
    have hroom : (tree.structBlock.length : Int) ≤ d + node.offset := h
    change ((tree.structBlock.length - node.offset : Nat) : Int) ≤ d
    omega
  | some depth =>
    obtain ⟨rfl, hpos, hoffset⟩ := h
    exact ⟨rfl, by omega, by omega⟩

theorem Steady.next {depth : Option Int} {d d' : Int} {found : NodeRef}
    (h : Steady tree node d depth) (hnext : tree.next node d = .ok (some (found, d'))) :
    Steady tree found d' (depth.map fun _ => d') := by
  obtain ⟨hoffset, hdeeper, hslower, hpos⟩ := Tree.depth_of_next hnext
  cases depth with
  | none =>
    have hroom : (tree.structBlock.length : Int) ≤ d + node.offset := h
    change (tree.structBlock.length : Int) ≤ d' + found.offset
    omega
  | some depth =>
    obtain ⟨rfl, hzero, hbelow⟩ := h
    exact ⟨rfl, hpos hzero, by omega⟩

theorem Steady.scan_eq {depth : Option Int} {d : Int} (h : Steady tree node d depth)
    (hsize : tree.structBlock.length < 2 ^ 32) :
    scan tree node depth = of ((tree.next node d).map (counted depth)) := by
  cases henter : tree.enter node with
  | error e => rw [scan, Tree.next, henter]; rfl
  | ok entered =>
    have := Tree.lt_of_enter henter
    exact Checked.scan_eq (h.counts hsize (by omega))

/-- A search goes through the walk of the tree. -/
theorem search_eq {accept : NodeRef → Option Int → Checked Bool}
    {accept' : NodeRef → Int → Except TreeError Bool} {depth : Option Int} {d : Int}
    (hsize : tree.structBlock.length < 2 ^ 32) (h : Steady tree node d depth)
    (haccept : ∀ found d', accept found (depth.map fun _ => d') = of (accept' found d')) :
    search tree accept node depth =
      of (((tree.walkFrom node d).find? accept').map (·.map Prod.fst)) := by
  have hscan := h.scan_eq hsize
  fun_induction Tree.walkFrom tree node d generalizing depth with
  | case1 node d e hnext =>
    rw [hnext] at hscan
    rw [search_of_scan hscan]
    rfl
  | case2 node d hnext =>
    rw [hnext] at hscan
    rw [search_of_scan hscan]
    rfl
  | case3 node d found d' hnext ih =>
    have hsteady := h.next hnext
    rw [hnext] at hscan
    rw [search_of_scan hscan]
    dsimp only [Except.map, counted, Option.map_some]
    rw [haccept, Tree.Walk.find?_prepend]
    cases accept' found d' with
    | error e => rfl
    | ok accepted =>
      cases accepted with
      | true => rfl
      | false =>
        refine ih hsteady ?_ (hsteady.scan_eq hsize)
        intro next d''
        rw [Option.map_map]
        exact haccept next d''

/-- The first node of the whole block that is accepted. -/
def searchAll (tree : Tree) (accept : NodeRef → Checked Bool) : Checked (Option NodeRef) := do
  let root ← of tree.root
  if ← accept root then return some root else search tree (fun node _ => accept node) root none

theorem searchAll_eq {accept : NodeRef → Checked Bool} {accept' : NodeRef → Except TreeError Bool}
    (hsize : tree.structBlock.length < 2 ^ 32) (haccept : ∀ found, accept found = of (accept' found)) :
    searchAll tree accept =
      of ((tree.walkAll.find? fun node _ => accept' node).map (·.map Prod.fst)) := by
  unfold searchAll Tree.walkAll
  cases tree.root with
  | error e => rfl
  | ok root =>
    dsimp only
    rw [of_ok_bind, haccept, Tree.Walk.find?_prepend]
    cases accept' root with
    | error e => rfl
    | ok accepted =>
      cases accepted with
      | true => rfl
      | false =>
        have hsteady : Steady tree root tree.anyDepth none := by
          change (tree.structBlock.length : Int) ≤ tree.structBlock.length + root.offset
          omega
        exact search_eq hsize hsteady (fun found _ => haccept found)

end Checked

end BootTree
