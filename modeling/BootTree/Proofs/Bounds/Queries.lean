import BootTree.Proofs.Bounds.Walks
import BootTree.Tree.Phandle

/-!
# BootTree.Proofs.Bounds.Queries

The queries of a tree with every access checked. Names and values are sliced out of the structure
block where an earlier look at a token has found them, and lists of strings are cut behind a
terminator that was found. None of this faults, and each query answers what that of the tree answers.

* `Checked.nodeName`, `Checked.value`, `Checked.valueAs`: names, values, and values read as a type.
* `Checked.countFrom`, `Checked.containsFrom`: going through a list of strings.
* `Checked.child?`, `Checked.resolve`, `Checked.findCompatible`, `Checked.findPhandle`: nodes.
-/

namespace BootTree

open Blob

variable {α : Type} {tree : Tree} {node : NodeRef} {name : Bytes}

namespace Checked

/-! ## Names and values -/

def nodeName (tree : Tree) (node : NodeRef) : Checked Bytes := do
  let _ ← of (tree.enter node)
  let start := node.offset + 4
  let tail ← access (slice? tree.structBlock start tree.structBlock.length)
  match cString? tail with
  | none => fail (.badStructure start)
  | some name => if Bytes.isText name then return name else fail (.badStructure start)

/-- The name of a node ends where a token was found to end. -/
theorem cString?_of_enter {offset : Nat} (h : tree.enter node = .ok (name, offset)) :
    cString? (tree.structBlock.drop (node.offset + 4)) = some name := by
  unfold Tree.enter at h
  split at h
  · rename_i hread
    cases h
    obtain ⟨hname, ⟨rest, hrest⟩, -⟩ := Token.read?_eq_some_iff.1 hread
    have hdrop : tree.structBlock.drop (node.offset + 4) = name ++ 0 :: rest := by
      rw [← List.drop_drop, ← hrest, Token.core, List.append_assoc]
      refine (List.drop_left' (Bytes.length_word 1)).trans ?_
      rw [List.append_assoc]
      rfl
    rw [hdrop, cString?_append hname]
  · cases h

theorem nodeName_eq : nodeName tree node = of (tree.nodeName node) := by
  unfold nodeName Tree.nodeName
  cases henter : tree.enter node with
  | error e => rfl
  | ok entered =>
    obtain ⟨name, offset⟩ := entered
    have := Tree.le_of_enter henter
    have := Tree.lt_of_enter henter
    rw [of_ok_bind]
    dsimp only
    rw [access_bind (slice?_tail (by omega)), cString?_of_enter henter]
    change (if Bytes.isText name then _ else _) = of (if Bytes.isText name then _ else _)
    split <;> rfl

def value (tree : Tree) (node : NodeRef) (name : Bytes) : Checked (Option Bytes) := do
  match ← of (tree.property? node name) with
  | none => return none
  | some found =>
    let start := found.offset + Token.propertyHead
    let raw ← access (slice? tree.structBlock start (start + found.value.length))
    return some raw

/-- The value of a property stands behind the head of its token. -/
theorem slice?_of_property? {found : Located} (h : tree.property? node name = .ok (some found)) :
    slice? tree.structBlock (found.offset + Token.propertyHead)
      (found.offset + Token.propertyHead + found.value.length) = some found.value := by
  obtain ⟨-, ⟨rest, hrest⟩, -⟩ := Token.read?_eq_some_iff.1 (Tree.read?_of_property? h)
  have hle := Tree.le_of_property? h
  have hvalue := Bytes.le_alignUp found.value.length
  rw [found.size_token] at hle
  have hdrop : tree.structBlock.drop (found.offset + Token.propertyHead) = found.value ++ rest := by
    rw [← List.drop_drop, ← hrest, Located.token, Token.core]
    simp only [← List.append_assoc]
    rw [List.append_assoc _ found.value]
    exact List.drop_left' rfl
  rw [slice?_of_le (by omega), Nat.add_sub_cancel_left, hdrop, List.take_left' rfl]

theorem value_eq : value tree node name = of (tree.value node name) := by
  unfold value Tree.value
  cases hfound : tree.property? node name with
  | error e => rfl
  | ok found =>
    cases found with
    | none => rfl
    | some found => exact access_bind (slice?_of_property? hfound) _

/-- A value that is read as a type. -/
def valueAs (decode : Bytes → Option (Except ValueError α)) (tree : Tree) (node : NodeRef)
    (name : Bytes) : Checked (Option α) := do
  match ← value tree node name with
  | none => return none
  | some raw =>
    match ← access (decode raw) with
    | .error _ => fail (.badValue raw.length)
    | .ok a => return some a

theorem valueAs_eq {decode : Bytes → Option (Except ValueError α)}
    {decode' : Bytes → Except ValueError α} (hdecode : ∀ raw, decode raw = some (decode' raw)) :
    valueAs decode tree node name = of (tree.valueAs decode' node name) := by
  unfold valueAs Tree.valueAs
  rw [value_eq]
  cases tree.value node name with
  | error e => rfl
  | ok found =>
    cases found with
    | none => rfl
    | some raw =>
      rw [of_ok_bind]
      dsimp only
      rw [access_bind (hdecode raw)]
      cases decode' raw <;> rfl

def cell (tree : Tree) (node : NodeRef) (name : Bytes) : Checked (Option UInt32) :=
  valueAs (fun raw => some (Tree.singleCell raw)) tree node name

def cells (tree : Tree) (node : NodeRef) (name : Bytes) : Checked (Option (List UInt32)) :=
  valueAs (fun raw => some (Cells.decode raw)) tree node name

def text (tree : Tree) (node : NodeRef) (name : Bytes) : Checked (Option Bytes) :=
  valueAs (fun raw => some (StringList.text raw)) tree node name

theorem cell_eq : cell tree node name = of (tree.cell node name) := valueAs_eq fun _ => rfl

theorem cells_eq : cells tree node name = of (tree.cells node name) := valueAs_eq fun _ => rfl

theorem text_eq : text tree node name = of (tree.text node name) := valueAs_eq fun _ => rfl

/-! ## String lists -/

/-- Count the entries of a list, one after the other. -/
def countFrom (count : Nat) (value : Bytes) : Option (Except ValueError Nat) :=
  if value = [] then some (.ok count)
  else
    match _h : StringList.next? value with
    | none => none
    | some (.ok _, rest) | some (.error .notText, rest) => countFrom (count + 1) rest
    | some (.error e, _) => some (.error e)
termination_by value.length
decreasing_by
  all_goals
    rcases StringList.append_of_next? _h with ⟨-, herror⟩ | ⟨front, -, rfl, -⟩
    · cases herror
    · rw [List.length_append, List.length_cons]
      omega

theorem countFrom_eq (count : Nat) (value : Bytes) :
    countFrom count value = some ((StringList.count value).map (count + ·)) := by
  have counted {front rest : Bytes} (count : Nat) (hfront : 0 ∉ front) :
      (StringList.count (front ++ 0 :: rest)).map (count + ·) =
        (StringList.count rest).map (count + 1 + ·) := by
    rw [StringList.count_append hfront]
    cases StringList.count rest with
    | error e => rfl
    | ok n => rw [Except.map, Except.map, Except.map, Nat.add_assoc, Nat.add_comm 1]
  fun_induction countFrom count value with
  | case1 count => rfl
  | case2 count value hne hnext =>
    rw [StringList.next?_eq] at hnext
    cases hnext
  | case3 count value hne entry rest hnext ih =>
    rcases StringList.append_of_next? hnext with ⟨-, herror⟩ | ⟨front, hfront, rfl, -⟩
    · cases herror
    · rw [ih, counted count hfront]
  | case4 count value hne rest hnext ih =>
    rcases StringList.append_of_next? hnext with ⟨-, herror⟩ | ⟨front, hfront, rfl, -⟩
    · cases herror
    · rw [ih, counted count hfront]
  | case5 count value hne e rest hother hnext =>
    rcases StringList.append_of_next? hnext with ⟨hmem, herror⟩ | ⟨front, -, -, herror⟩
    · cases herror
      rw [StringList.count_of_not_mem hmem, if_neg hne]
      rfl
    · split at herror
      · cases herror
      · cases herror
        exact absurd rfl hother

/-- Whether a list has an entry `wanted` in front of the first one that cannot be read. -/
def containsFrom (wanted value : Bytes) : Option Bool :=
  match _h : StringList.next? value with
  | none => none
  | some (.error _, _) => some false
  | some (.ok entry, rest) => if entry = wanted then some true else containsFrom wanted rest
termination_by value.length
decreasing_by
  rcases StringList.append_of_next? _h with ⟨-, herror⟩ | ⟨front, -, rfl, -⟩
  · cases herror
  · rw [List.length_append, List.length_cons]
    omega

theorem containsFrom_eq (wanted value : Bytes) :
    containsFrom wanted value = some ((StringList.texts value).contains wanted) := by
  have listed {value entry rest : Bytes} (hnext : StringList.next? value = some (.ok entry, rest)) :
      StringList.texts value = entry :: StringList.texts rest := by
    rcases StringList.append_of_next? hnext with ⟨-, herror⟩ | ⟨front, hfront, rfl, hentry⟩
    · cases herror
    · split at hentry
      · rename_i htext
        cases hentry
        rw [StringList.texts, StringList.split_append hfront, List.takeWhile_cons_of_pos htext]
        rfl
      · cases hentry
  fun_induction containsFrom wanted value with
  | case1 value hnext =>
    rw [StringList.next?_eq] at hnext
    cases hnext
  | case2 value e rest hnext =>
    rcases StringList.append_of_next? hnext with ⟨hmem, -⟩ | ⟨front, hfront, rfl, herror⟩
    · rw [StringList.texts, StringList.split_of_not_mem hmem]
      rfl
    · split at herror
      · cases herror
      · rename_i htext
        rw [StringList.texts, StringList.split_append hfront, List.takeWhile_cons_of_neg htext]
        rfl
  | case3 value rest hnext =>
    rw [listed hnext, List.contains_cons, beq_self_eq_true, Bool.true_or]
  | case4 value entry rest hnext hne ih =>
    rw [ih, listed hnext, List.contains_cons, beq_eq_false_iff_ne.2 (Ne.symm hne), Bool.false_or]

def stringCount (tree : Tree) (node : NodeRef) (name : Bytes) : Checked (Option Nat) :=
  valueAs (countFrom 0) tree node name

theorem stringCount_eq : stringCount tree node name = of (tree.stringCount node name) := by
  refine valueAs_eq ?_
  intro raw
  rw [countFrom_eq]
  cases StringList.count raw with
  | error e => rfl
  | ok count => rw [Except.map, Nat.zero_add]

/-- A malformed list names nothing, a fault remains one. -/
def isCompatible (tree : Tree) (node : NodeRef) (compatible : Bytes) : Checked Bool :=
  match value tree node "compatible" with
  | fault => fault
  | of (.ok (some list)) => access (containsFrom compatible list)
  | of _ => pure false

theorem isCompatible_eq {compatible : Bytes} :
    isCompatible tree node compatible = of (.ok (tree.isCompatible node compatible)) := by
  rw [isCompatible, value_eq, Tree.isCompatible]
  cases tree.value node "compatible" with
  | error e => rfl
  | ok found =>
    cases found with
    | none => rfl
    | some list =>
      dsimp only
      rw [containsFrom_eq]
      rfl

def isEnabled (tree : Tree) (node : NodeRef) : Checked Bool :=
  match text tree node "status" with
  | fault => fault
  | of (.ok none) => pure true
  | of (.ok (some status)) =>
    pure (status = Bytes.ofText "okay" || status = Bytes.ofText "ok")
  | of (.error _) => pure false

theorem isEnabled_eq : isEnabled tree node = of (.ok (tree.isEnabled node)) := by
  rw [isEnabled, text_eq, Tree.isEnabled]
  cases tree.text node "status" with
  | error e => rfl
  | ok found => cases found <;> rfl

/-! ## Finding nodes -/

/-- The first child of a node whose name is accepted. -/
def childWhere (tree : Tree) (accepts : Bytes → Bool) (parent : NodeRef) :
    Checked (Option NodeRef) :=
  search tree (fun node depth => do
    if depth = some 1 then return accepts (← nodeName tree node) else return false) parent (some 0)

theorem childWhere_eq (hsize : tree.structBlock.length < 2 ^ 32) {accepts : Bytes → Bool} :
    childWhere tree accepts node =
      of (((tree.walkFrom node 0).find? fun node depth =>
        if depth = 1 then (tree.nodeName node).map accepts else .ok false).map
          (·.map Prod.fst)) := by
  have hsteady : Steady tree node 0 (some 0) := ⟨rfl, by omega, by omega⟩
  refine search_eq hsize hsteady ?_
  intro child depth
  rw [nodeName_eq]
  simp only [Option.map_some, Option.some.injEq]
  split
  · cases tree.nodeName child <;> rfl
  · rfl

def child? (tree : Tree) (parent : NodeRef) (wanted : Bytes) : Checked (Option NodeRef) :=
  childWhere tree (nameMatches · wanted) parent

theorem child?_eq (hsize : tree.structBlock.length < 2 ^ 32) {wanted : Bytes} :
    child? tree node wanted = of (tree.child? node wanted) :=
  childWhere_eq hsize

def namesake? (tree : Tree) (parent : NodeRef) (name : Bytes) : Checked (Option NodeRef) :=
  childWhere tree (fun found => decide (found = name)) parent

theorem namesake?_eq (hsize : tree.structBlock.length < 2 ^ 32) :
    namesake? tree node name = of (tree.namesake? node name) :=
  childWhere_eq hsize

def descend (tree : Tree) (node : NodeRef) : List Bytes → Checked (Option NodeRef)
  | [] => pure (some node)
  | component :: rest => do
    match ← child? tree node component with
    | none => return none
    | some child => descend tree child rest

theorem descend_eq (hsize : tree.structBlock.length < 2 ^ 32) {components : List Bytes} :
    descend tree node components = of (tree.descend node components) := by
  induction components generalizing node with
  | nil => rfl
  | cons component rest ih =>
    rw [descend, Tree.descend, child?_eq hsize]
    cases tree.child? node component with
    | error e => rfl
    | ok found =>
      cases found with
      | none => rfl
      | some child => exact ih

def resolve (tree : Tree) (path : Bytes) : Checked (Option NodeRef) := do
  if path.head? ≠ some slash then fail .badName
  else descend tree (← of tree.root) (Tree.components path)

theorem resolve_eq (hsize : tree.structBlock.length < 2 ^ 32) {path : Bytes} :
    resolve tree path = of (tree.resolve path) := by
  unfold resolve Tree.resolve
  split
  · rfl
  · cases tree.root with
    | error e => rfl
    | ok root => exact descend_eq hsize

def findCompatible (tree : Tree) (start : Option NodeRef) (compatible : Bytes) :
    Checked (Option NodeRef) :=
  match start with
  | none => searchAll tree fun node => isCompatible tree node compatible
  | some node => search tree (fun node _ => isCompatible tree node compatible) node none

theorem findCompatible_eq (hsize : tree.structBlock.length < 2 ^ 32) {start : Option NodeRef}
    {compatible : Bytes} :
    findCompatible tree start compatible = of (tree.findCompatible start compatible) := by
  cases start with
  | none => exact searchAll_eq hsize fun _ => isCompatible_eq
  | some node =>
    have hsteady : Steady tree node tree.anyDepth none := by
      change (tree.structBlock.length : Int) ≤ tree.structBlock.length + node.offset
      omega
    exact search_eq hsize hsteady fun _ _ => isCompatible_eq

def phandleOf (tree : Tree) (node : NodeRef) : Checked (Option Phandle) := do
  match ← cell tree node "phandle" with
  | some raw => return Phandle.ofRaw? raw
  | none => return (← cell tree node "linux,phandle").bind Phandle.ofRaw?

theorem phandleOf_eq : phandleOf tree node = of (tree.phandleOf node) := by
  unfold phandleOf Tree.phandleOf
  rw [cell_eq, cell_eq]
  cases tree.cell node "phandle" with
  | error e => rfl
  | ok found =>
    cases found with
    | some raw => rfl
    | none => cases tree.cell node "linux,phandle" <;> rfl

def findPhandle (tree : Tree) (phandle : Phandle) : Checked (Option NodeRef) :=
  searchAll tree fun node => do return decide ((← phandleOf tree node) = some phandle)

theorem findPhandle_eq (hsize : tree.structBlock.length < 2 ^ 32) {phandle : Phandle} :
    findPhandle tree phandle = of (tree.findPhandle phandle) := by
  refine searchAll_eq hsize ?_
  intro found
  rw [phandleOf_eq]
  cases tree.phandleOf found <;> rfl

end Checked

end BootTree
