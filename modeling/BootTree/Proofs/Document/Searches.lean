import Mathlib.Data.List.Sort
import BootTree.Proofs.Bounds.Walks
import BootTree.Proofs.Document.Listing
import BootTree.Proofs.Edma.Removal
import BootTree.Proofs.Tree.Iteration

/-!
# BootTree.Proofs.Document.Searches

Searches of a whole tree, for a phandle or for what nodes are compatible with. A search can go on
behind any node. It then counts the depth of that node as one from which no walk comes down to zero,
so it crosses the ends of all subtrees up to the end of the block.

* `Tree.Stores.iterates_anyDepth`: from a node on, a walk at such a depth meets all nodes behind it.
* `Tree.Stores.findCompatible_behind`: one search among these.
* `Tree.FindsAll`: searching again behind each answer; `Tree.Stores.findsAll_iff`: this picks out
  the nodes that are compatible, in order.
* `Document.ListsCompatible`, `Document.CompatiblesAreLists`: what nodes are compatible with, by the
  entries of a list of strings.
* `Tree.Stores.searches`: what both searches find, by what the document says.
-/

namespace BootTree

namespace Tree

variable {tree : Tree} {doc : Document} {i : Nat} {ref : NodeRef} {d d' : Int}
  {nodes : List (NodeRef × Int)}

/-! ## Walks that leave every subtree -/

/-- A depth at which a walk from a node is not held back by the ends of nodes: there are not as many
in the rest of the block. -/
def IsHigh (tree : Tree) (ref : NodeRef) (d : Int) : Prop :=
  Checked.Counts (tree.structBlock.length - ref.offset) d none

theorem isHigh_anyDepth (tree : Tree) (ref : NodeRef) : tree.IsHigh ref tree.anyDepth := by
  have hroom : tree.structBlock.length - ref.offset ≤ tree.structBlock.length := Nat.sub_le _ _
  exact Int.ofNat_le.2 hroom

theorem IsHigh.next {found : NodeRef} (h : tree.IsHigh ref d)
    (hnext : tree.next ref d = .ok (some (found, d'))) : tree.IsHigh found d' := by
  have hroom : ((tree.structBlock.length - ref.offset : Nat) : Int) ≤ d := h
  obtain ⟨-, -, hslower, -⟩ := depth_of_next hnext
  obtain ⟨-, hin⟩ := bounds_of_next hnext
  change ((tree.structBlock.length - found.offset : Nat) : Int) ≤ d'
  omega

/-- From high up, the next node is the same one whatever the depth is. -/
theorem IsHigh.next_eq (h : tree.IsHigh ref d) (h' : tree.IsHigh ref d') :
    (tree.next ref d').map (·.map Prod.fst) = (tree.next ref d).map (·.map Prod.fst) := by
  have hscan := (Checked.scan_eq h').symm.trans (Checked.scan_eq h)
  have hcounted := congrArg (Except.map (Option.map Prod.fst)) (Checked.of.inj hscan)
  have hmap (answer : Except TreeError (Option (NodeRef × Int))) :
      (answer.map (Checked.counted none)).map (Option.map Prod.fst) =
        answer.map (·.map Prod.fst) := by
    rcases answer with e | _ | found <;> rfl
  rwa [hmap, hmap] at hcounted

theorem Iterates.of_isHigh (h : tree.Iterates ref d nodes) (hd : tree.IsHigh ref d)
    (hd' : tree.IsHigh ref d') :
    ∃ nodes', tree.Iterates ref d' nodes' ∧ nodes'.map Prod.fst = nodes.map Prod.fst := by
  induction h generalizing d' with
  | @stop ref d hnext =>
    have hsame := hd.next_eq hd'
    rw [hnext] at hsame
    rcases hanswer : tree.next ref d' with e | _ | found
    · rw [hanswer] at hsame
      cases hsame
    · exact ⟨[], .stop hanswer, rfl⟩
    · rw [hanswer] at hsame
      cases hsame
  | @step ref found d depth rest hnext _ ih =>
    have hsame := hd.next_eq hd'
    rw [hnext] at hsame
    rcases hanswer : tree.next ref d' with e | _ | ⟨found', depth'⟩
    · rw [hanswer] at hsame
      cases hsame
    · rw [hanswer] at hsame
      cases hsame
    · rw [hanswer] at hsame
      obtain rfl : found' = found := Option.some.inj (Except.ok.inj hsame)
      obtain ⟨rest', hrest', hplaces⟩ := ih (hd.next hnext) (hd'.next hanswer)
      exact ⟨_, .step hanswer hrest', congrArg (found' :: ·) hplaces⟩

/-- A search that starts behind a node meets all nodes behind it, up to the end of the block. -/
theorem Stores.iterates_anyDepth (h : tree.Stores doc) (href : tree.nodes[i]? = some ref) :
    ∃ nodes, tree.Iterates ref tree.anyDepth nodes ∧
      nodes.map Prod.fst = tree.nodes.drop (i + 1) := by
  -- By the walk through the whole tree, which comes by every node at some such depth.
  have hbehind : ∀ i ref, tree.nodes[i]? = some ref → ∃ d nodes, tree.IsHigh ref d ∧
      tree.Iterates ref d nodes ∧ nodes.map Prod.fst = tree.nodes.drop (i + 1) := by
    intro i
    induction i with
    | zero =>
      intro ref href
      obtain ⟨root, hfirst, hroot⟩ := h.root
      obtain rfl : root = ref := Option.some.inj (hfirst.symm.trans href)
      obtain ⟨nodes, hwalk, hnodes⟩ := h.walkAll
      rw [Tree.walkAll, hroot] at hwalk
      obtain ⟨hall, hfailure⟩ := Walk.mk.inj hwalk
      refine ⟨tree.anyDepth, (tree.walkFrom root tree.anyDepth).nodes, tree.isHigh_anyDepth root,
        iterates_iff.2 (congrArg (Walk.mk _) hfailure), ?_⟩
      rw [← hnodes, ← hall]
      rfl
    | succ i ih =>
      intro ref href
      have hlt := (List.getElem?_eq_some_iff.1 href).1
      obtain ⟨d, nodes, hhigh, hiterates, hnodes⟩ :=
        ih _ (List.getElem?_eq_getElem (Nat.lt_of_succ_lt hlt))
      rw [List.drop_eq_getElem_cons hlt, (List.getElem?_eq_some_iff.1 href).2] at hnodes
      cases hiterates with
      | stop _ => cases hnodes
      | step hnext hrest =>
        obtain ⟨rfl, hplaces⟩ := List.cons.inj hnodes
        exact ⟨_, _, hhigh.next hnext, hrest, hplaces⟩
  obtain ⟨d, nodes, hhigh, hiterates, hnodes⟩ := hbehind i ref href
  obtain ⟨nodes', hiterates', hplaces⟩ := hiterates.of_isHigh hhigh (tree.isHigh_anyDepth ref)
  exact ⟨nodes', hiterates', hplaces.trans hnodes⟩

/-! ## Searching behind a node -/

/-- How many nodes a search passes over: none if it starts at the beginning, else all up to the node
that it starts behind. -/
def Passes (tree : Tree) : Option NodeRef → Nat → Prop
  | none, passed => passed = 0
  | some ref, passed => ∃ i, passed = i + 1 ∧ tree.nodes[i]? = some ref

theorem Stores.findCompatible_behind (h : tree.Stores doc) {start : Option NodeRef} {passed : Nat}
    (hstart : tree.Passes start passed) (compatible : Bytes) :
    tree.findCompatible start compatible =
      .ok ((tree.nodes.drop passed).find? (tree.isCompatible · compatible)) := by
  obtain ⟨nodes, hwalk, hnodes⟩ : ∃ nodes, tree.walkBehind start = ⟨nodes, none⟩ ∧
      nodes.map Prod.fst = tree.nodes.drop passed := by
    cases start with
    | none =>
      obtain rfl : passed = 0 := hstart
      exact h.walkAll
    | some ref =>
      obtain ⟨i, rfl, href⟩ := hstart
      obtain ⟨nodes, hiterates, hnodes⟩ := h.iterates_anyDepth href
      exact ⟨nodes, iterates_iff.1 hiterates, hnodes⟩
  rw [Tree.findCompatible, hwalk,
    Walk.find?_eq_findM? fun node => .ok (tree.isCompatible node compatible), hnodes, findM?_ok]

/-- Searching for what is compatible with something, first from some start and then behind each
answer, until there is no answer. -/
inductive FindsAll (tree : Tree) (compatible : Bytes) : Option NodeRef → List NodeRef → Prop where
  | stop {start : Option NodeRef} : tree.findCompatible start compatible = .ok none →
      FindsAll tree compatible start []
  | step {start : Option NodeRef} {found : NodeRef} {rest : List NodeRef} :
      tree.findCompatible start compatible = .ok (some found) →
      FindsAll tree compatible (some found) rest → FindsAll tree compatible start (found :: rest)

/-- What a search finds first is the first of all that it can find. -/
theorem filter_drop_of_find? {α : Type} {p : α → Bool} {l : List α} {k : Nat} {a : α}
    (h : (l.drop k).find? p = some a) :
    ∃ j, k ≤ j ∧ l[j]? = some a ∧ (l.drop k).filter p = a :: (l.drop (j + 1)).filter p := by
  obtain ⟨ha, before, behind, hsplit, hbefore⟩ := List.find?_eq_some_iff_append.1 h
  have hbehind : l.drop (k + before.length + 1) = behind := by
    rw [Nat.add_assoc, ← List.drop_drop, hsplit, List.drop_append]
    simp
  have hnone : before.filter p = [] := by
    rw [List.filter_eq_nil_iff]
    intro b hb
    simpa using hbefore b hb
  refine ⟨k + before.length, Nat.le_add_right _ _, ?_, ?_⟩
  · rw [← List.getElem?_drop, hsplit]
    simp
  · rw [hbehind, hsplit, List.filter_append, hnone, List.nil_append, List.filter_cons, if_pos ha]

theorem Stores.findsAll_iff (h : tree.Stores doc) {start : Option NodeRef} {passed : Nat}
    (hstart : tree.Passes start passed) {compatible : Bytes} {visited : List NodeRef} :
    tree.FindsAll compatible start visited ↔
      visited = (tree.nodes.drop passed).filter (tree.isCompatible · compatible) := by
  induction hleft : tree.nodes.length - passed using Nat.strong_induction_on
    generalizing start passed visited with
  | _ left ih =>
    have hsearch := h.findCompatible_behind hstart compatible
    cases hfind : (tree.nodes.drop passed).find? (tree.isCompatible · compatible) with
    | none =>
      rw [hfind] at hsearch
      rw [List.filter_eq_nil_iff.2 (List.find?_eq_none.1 hfind)]
      constructor
      · rintro (_ | ⟨hfound, -⟩)
        · rfl
        · rw [hsearch] at hfound
          cases hfound
      · rintro rfl
        exact .stop hsearch
    | some found =>
      rw [hfind] at hsearch
      obtain ⟨j, hle, hj, hfilter⟩ := filter_drop_of_find? hfind
      have hlt := (List.getElem?_eq_some_iff.1 hj).1
      have hrest {visited : List NodeRef} := @ih (tree.nodes.length - (j + 1)) (by omega)
        (some found) (j + 1) ⟨j, rfl, hj⟩ visited rfl
      rw [hfilter]
      constructor
      · rintro (hnone | ⟨hanswer, hvisited⟩)
        · rw [hsearch] at hnone
          cases hnone
        · rw [hsearch] at hanswer
          cases hanswer
          rw [hrest.1 hvisited]
      · rintro rfl
        exact .step hsearch (hrest.2 rfl)

/-- The numbers of the nodes that a search can find. -/
theorem Stores.forall₂_filter (h : tree.Stores doc) (compatible : Bytes) :
    List.Forall₂ (fun i ref => tree.nodes[i]? = some ref)
      ((List.range doc.forest.size).filter (doc.isCompatible · compatible))
      (tree.nodes.filter (tree.isCompatible · compatible)) := by
  have hnumbers : List.Forall₂ (fun i ref => tree.nodes[i]? = some ref)
      (List.range doc.forest.size) tree.nodes := by
    rw [List.forall₂_iff_get]
    refine ⟨by rw [List.length_range, h.length_nodes], ?_⟩
    intro i hi hi'
    rw [List.get_eq_getElem, List.getElem_range]
    exact List.getElem?_eq_getElem hi'
  refine List.rel_filter ?_ hnumbers
  intro i ref href
  exact iff_of_eq (congrArg (· = true) (h.isCompatible href compatible).symm)

end Tree

/-! ## Lists of strings -/

theorem StringList.texts_join {entries : List Bytes}
    (h : ∀ entry ∈ entries, 0 ∉ entry ∧ Bytes.isText entry = true) :
    texts (join entries) = entries := by
  rw [texts, split_join fun entry hentry => (h entry hentry).1]
  exact List.takeWhile_eq_self_iff.2 fun entry hentry => (h entry hentry).2

namespace Document

section Lists

variable (doc : Document)

/-- What a node is compatible with is a list of zero-terminated strings, and this is one of them. -/
def ListsCompatible (i : Nat) (compatible : Bytes) : Prop :=
  ∃ entries, doc.value? i "compatible" = some (StringList.join entries) ∧
    (∀ entry ∈ entries, 0 ∉ entry ∧ Bytes.isText entry = true) ∧ compatible ∈ entries

/-- Whatever says what nodes are compatible with is a list of zero-terminated strings. -/
def CompatiblesAreLists : Prop :=
  ∀ i value, doc.value? i "compatible" = some value → ∃ entries,
    value = StringList.join entries ∧ ∀ entry ∈ entries, 0 ∉ entry ∧ Bytes.isText entry = true

end Lists

variable {doc : Document} {i : Nat} {compatible : Bytes}

theorem ListsCompatible.lt_size (h : doc.ListsCompatible i compatible) : i < doc.forest.size := by
  obtain ⟨entries, hvalue, -⟩ := h
  by_contra hout
  rw [value?_of_size_le (Nat.le_of_not_lt hout)] at hvalue
  cases hvalue

theorem CompatiblesAreLists.isCompatible_iff (h : doc.CompatiblesAreLists) :
    doc.isCompatible i compatible = true ↔ doc.ListsCompatible i compatible := by
  rw [Document.isCompatible, ListsCompatible]
  cases hvalue : doc.value? i "compatible" with
  | none => simp
  | some value =>
    dsimp only
    rw [List.contains_iff_mem]
    constructor
    · intro hmem
      obtain ⟨entries, rfl, hentries⟩ := h i value hvalue
      rw [StringList.texts_join hentries] at hmem
      exact ⟨entries, rfl, hentries, hmem⟩
    · rintro ⟨entries, heq, hentries, hmem⟩
      rwa [Option.some.inj heq, StringList.texts_join hentries]

end Document

namespace Tree

variable {tree : Tree} {doc : Document}

/-- A search for a phandle ends at the first node that has it, or without one. -/
theorem Stores.findPhandle_cases (h : tree.Stores doc) (hphandles : doc.PhandlesAreCells)
    (phandle : Phandle) :
    (∃ i ref, doc.FirstWith phandle i ∧ tree.nodes[i]? = some ref ∧
        tree.findPhandle phandle = .ok (some ref)) ∨
      (∀ i, ¬ doc.Carries i phandle) ∧ tree.findPhandle phandle = .ok none := by
  rw [h.findPhandle phandle]
  by_cases hcarried : ∃ i, doc.Carries i phandle
  · obtain ⟨i, hcarries⟩ := hcarried
    obtain ⟨first, hfirst⟩ := hcarries.exists_firstWith
    have hfound := hphandles.findPhandle_eq_some_iff.2 hfirst
    obtain ⟨ref, href⟩ := h.exists_of_findPhandle hfound
    refine .inl ⟨first, ref, hfirst, href, ?_⟩
    rw [hfound]
    exact congrArg Except.ok href
  · have hnone := not_exists.1 hcarried
    refine .inr ⟨hnone, ?_⟩
    rw [hphandles.findPhandle_eq_none_iff.2 hnone]
    rfl

/-- **Searches.** Where every phandle is a single cell, and what nodes are compatible with is always
a list of strings, the search for a phandle finds the first node that has it and ends without one
exactly if none does; and searching again and again for what is compatible with something finds
exactly the nodes that list it, each once and in document order. -/
theorem Stores.searches (h : tree.Stores doc) (hphandles : doc.PhandlesAreCells)
    (hlists : doc.CompatiblesAreLists) :
    (∀ phandle,
      (∀ ref, tree.findPhandle phandle = .ok (some ref) ↔
        ∃ i, doc.FirstWith phandle i ∧ tree.nodes[i]? = some ref) ∧
      (tree.findPhandle phandle = .ok none ↔ ∀ i, ¬ doc.Carries i phandle)) ∧
    ∀ compatible, ∃ numbers visited,
      (∀ nodes, tree.FindsAll compatible none nodes ↔ nodes = visited) ∧
      numbers.Pairwise (· < ·) ∧ (∀ i, i ∈ numbers ↔ doc.ListsCompatible i compatible) ∧
      List.Forall₂ (fun i ref => tree.nodes[i]? = some ref) numbers visited := by
  constructor
  · intro phandle
    rcases h.findPhandle_cases hphandles phandle with
      ⟨i, ref, hfirst, href, hfound⟩ | ⟨hnone, hfound⟩
    · rw [hfound]
      constructor
      · intro other
        constructor
        · rintro ⟨⟩
          exact ⟨i, hfirst, href⟩
        · rintro ⟨j, hj, hother⟩
          obtain rfl := hfirst.unique hj
          rw [← href, hother]
      · constructor
        · rintro ⟨⟩
        · intro hnone
          exact absurd hfirst.carries (hnone i)
    · rw [hfound]
      constructor
      · intro other
        constructor
        · rintro ⟨⟩
        · rintro ⟨j, hj, -⟩
          exact absurd hj.carries (hnone j)
      · exact iff_of_true rfl hnone
  · intro compatible
    have hstart : tree.Passes none 0 := rfl
    refine ⟨_, _, fun nodes => h.findsAll_iff hstart, ?_, ?_, h.forall₂_filter compatible⟩
    · exact List.pairwise_lt_range.filter _
    · intro i
      rw [List.mem_filter, List.mem_range, hlists.isCompatible_iff]
      exact and_iff_right_of_imp Document.ListsCompatible.lt_size

/-! ## Buses at several depths -/

/-- Two buses on a board that is one itself. A serial port in the first and the second bus have the
same phandle. -/
def nestedBusDocument : Document where
  name := []
  properties := [⟨"compatible", StringList.join ["fsl,imx8qm-mek", "simple-bus"]⟩]
  children :=
    .node "bus@5a000000" [⟨"compatible", StringList.join ["simple-bus"]⟩]
      (.node "serial@5a060000" [⟨"linux,phandle", Cells.encode [2]⟩] .nil .nil)
    (.node "bus@5b000000" [⟨"compatible", StringList.join ["fsl,bus", "simple-bus"]⟩,
      ⟨"phandle", Cells.encode [2]⟩] .nil .nil)

def nestedBusTree : Tree :=
  nestedBusDocument.write (StringList.join ["compatible", "phandle", "linux,phandle"]) 0

theorem stores_nestedBusTree : nestedBusTree.Stores nestedBusDocument :=
  Document.stores_write (by decide) rfl 0

theorem compatiblesAreLists_nestedBusDocument : nestedBusDocument.CompatiblesAreLists := by
  intro i value hvalue
  match i with
  | 0 => exact ⟨["fsl,imx8qm-mek", "simple-bus"], (Option.some.inj hvalue).symm, by decide⟩
  | 1 => exact ⟨["simple-bus"], (Option.some.inj hvalue).symm, by decide⟩
  | 2 => cases hvalue
  | 3 => exact ⟨["fsl,bus", "simple-bus"], (Option.some.inj hvalue).symm, by decide⟩
  | i + 4 =>
    rw [Document.value?_of_size_le (Nat.le_add_left 4 i)] at hvalue
    cases hvalue

theorem nodes_nestedBusTree : nestedBusTree.nodes = [⟨0⟩, ⟨48⟩, ⟨92⟩, ⟨136⟩] := by
  decide +kernel

theorem listsCompatible_nestedBusDocument_iff {i : Nat} :
    nestedBusDocument.ListsCompatible i "simple-bus" ↔ i ∈ [0, 1, 3] := by
  rw [← compatiblesAreLists_nestedBusDocument.isCompatible_iff]
  match i with
  | 0 | 1 | 2 | 3 => decide
  | i + 4 =>
    rw [Document.isCompatible, Document.value?_of_size_le (Nat.le_add_left 4 i)]
    simp

/-- The port comes in front of the other node with its phandle, and the search for buses crosses the
end of the first one. -/
theorem searches_nestedBusTree :
    nestedBusTree.findPhandle ⟨2, by decide, by decide⟩ = .ok (some ⟨92⟩) ∧
      nestedBusTree.FindsAll "simple-bus" none [⟨0⟩, ⟨48⟩, ⟨136⟩] := by
  have hphandles : nestedBusDocument.PhandlesAreCells := by decide
  obtain ⟨hphandle, hcompatible⟩ :=
    Stores.searches stores_nestedBusTree hphandles compatiblesAreLists_nestedBusDocument
  have hport : nestedBusDocument.FirstWith ⟨2, by decide, by decide⟩ 2 := ⟨by decide, by decide⟩
  refine ⟨((hphandle _).1 _).2 ⟨2, hport, by rw [nodes_nestedBusTree]; rfl⟩, ?_⟩
  obtain ⟨numbers, visited, honly, hascending, hnumbers, hplaces⟩ := hcompatible "simple-bus"
  obtain rfl : numbers = [0, 1, 3] := by
    refine hascending.eq_of_mem_iff (by decide) ?_
    intro i
    rw [hnumbers, listsCompatible_nestedBusDocument_iff]
  rw [honly]
  rw [nodes_nestedBusTree] at hplaces
  obtain _ | ⟨⟨⟩, _ | ⟨⟨⟩, _ | ⟨⟨⟩, _ | _⟩⟩⟩ := hplaces
  rfl

end Tree

end BootTree
