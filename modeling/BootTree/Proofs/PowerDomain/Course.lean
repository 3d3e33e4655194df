import BootTree.Proofs.PowerDomain.Moves

/-!
# BootTree.Proofs.PowerDomain.Course

The course of the fixup of power domains through a tree of any bytes. Disabling a node enlarges the
block that is walked through, so the measure of the walk is not its length but the nodes that are
ahead: each visit leaves the nodes behind its own as they are, and goes on at one of these.

* `PowerDomain.Walks`: executions of a walk, without a bound on the number of visits.
* `PowerDomain.Walks.result_walk`: the bound of the walk that is run has no part in the result, as soon
  as it is large enough.
* `PowerDomain.Course`: all visits of an execution, seen from the tree that it starts with.
* `Tree.exists_course_restrict`: the fixup is such an execution.
-/

namespace BootTree

open PowerDomain

/-- Where the walks start: at the node behind the root. -/
def Tree.first (tree : Tree) : Except TreeError (Option (NodeRef × Int)) := do
  let root ← tree.root
  tree.next root 0

namespace PowerDomain

/-! ## Executions without a bound -/

/-- A node that was visited, the tree before and after that, and what was reported. -/
structure Visit where
  node : NodeRef
  depth : Int
  before : Tree
  after : Tree
  events : List Event

/-- Visits from a cursor on, each one where the last one has led to, until there is no node left or one
of them fails. -/
inductive Walks (visit : NodeRef → Int → Attempt TreeError (Option (NodeRef × Int))) :
    Tree → Option (NodeRef × Int) → List Visit → Except TreeError Unit → Tree → Prop where
  | ends (tree : Tree) : Walks visit tree none [] (.ok ()) tree
  | fails {tree tree' : Tree} {node : NodeRef} {depth : Int} {e : TreeError}
      (hvisit : (visit node depth).result tree = (.error e, tree')) :
      Walks visit tree (some (node, depth))
        [⟨node, depth, tree, tree', (visit node depth).events tree⟩] (.error e) tree'
  | goes {tree tree' tree'' : Tree} {node : NodeRef} {depth : Int}
      {cursor : Option (NodeRef × Int)} {visits : List Visit} {outcome : Except TreeError Unit}
      (hvisit : (visit node depth).result tree = (.ok cursor, tree'))
      (hrest : Walks visit tree' cursor visits outcome tree'') :
      Walks visit tree (some (node, depth))
        (⟨node, depth, tree, tree', (visit node depth).events tree⟩ :: visits) outcome tree''

/-- With enough visits to spend, the walk that is run is the one without a bound. -/
theorem Walks.result_walk {visit : NodeRef → Int → Attempt TreeError (Option (NodeRef × Int))}
    {tree tree' : Tree} {cursor : Option (NodeRef × Int)} {visits : List Visit}
    {outcome : Except TreeError Unit} (h : Walks visit tree cursor visits outcome tree') {bound : Nat}
    (hbound : visits.length ≤ bound) :
    (walk visit bound cursor).result tree = (outcome, tree') ∧
      (walk visit bound cursor).events tree = visits.flatMap Visit.events := by
  induction h generalizing bound with
  | ends tree =>
    rw [walk]
    exact ⟨rfl, rfl⟩
  | fails hvisit =>
    obtain ⟨bound, rfl⟩ := Nat.exists_eq_add_of_le' hbound
    rw [List.length_singleton, walk, Attempt.result_bind_of_error hvisit,
      Attempt.events_bind_of_error hvisit, List.flatMap_singleton]
    exact ⟨rfl, rfl⟩
  | goes hvisit hrest ih =>
    obtain ⟨bound, rfl⟩ := Nat.exists_eq_add_of_le' (Nat.le_trans (Nat.le_add_left 1 _) hbound)
    obtain ⟨hresult, hevents⟩ := ih (Nat.le_of_succ_le_succ hbound)
    rw [walk, Attempt.result_bind_of_ok hvisit, Attempt.events_bind_of_ok hvisit, List.flatMap_cons,
      hevents]
    exact ⟨hresult, rfl⟩

/-! ## All visits -/

variable {tree : Tree}

/-- The visits of an execution, seen from the tree that it starts with and the nodes that are ahead
there. Every visit is one of another such node, further on than the last one; it leaves all nodes
behind its own, and asks for no more resources than the limit of its node. -/
structure Course (limit : Tree → NodeRef → Nat) (original : Tree) (nodes : List (NodeRef × Int))
    (visits : List Visit) : Prop where
  origins : ∃ origins, origins.Sublist nodes ∧
    List.Forall₂ (fun origin v => original.SameFrom v.before origin (v.node, v.depth)) origins visits
  ascending : visits.Pairwise fun v w => v.node.offset < w.node.offset
  keepsBehind : ∀ v ∈ visits, v.before.KeepsBehind v.after v.node
  queries : ∀ v ∈ visits, (Event.queries v.events).length ≤ limit v.before v.node

theorem Course.length_le {limit : Tree → NodeRef → Nat} {original : Tree}
    {nodes : List (NodeRef × Int)} {visits : List Visit} (h : Course limit original nodes visits) :
    visits.length ≤ nodes.length := by
  obtain ⟨origins, hsublist, hsame⟩ := h.origins
  rw [← hsame.length_eq]
  exact hsublist.length_le

/-- One more visit in front of others. -/
theorem Course.cons {limit : Tree → NodeRef → Nat} {original : Tree} {origin : NodeRef × Int}
    {rest left : List (NodeRef × Int)} {v : Visit} {visits : List Visit}
    (hsame : original.SameFrom v.before origin (v.node, v.depth))
    (hkeeps : v.before.KeepsBehind v.after v.node)
    (hqueries : (Event.queries v.events).length ≤ limit v.before v.node)
    (hsublist : left.Sublist rest) (hahead : ∀ w ∈ visits, v.node.offset < w.node.offset)
    (h : Course limit original left visits) : Course limit original (origin :: rest) (v :: visits) := by
  obtain ⟨origins, horigins, hall⟩ := h.origins
  refine ⟨⟨origin :: origins, (horigins.trans hsublist).cons_cons origin, .cons hsame hall⟩,
    .cons hahead h.ascending, ?_, ?_⟩
  · intro w hw
    rcases List.mem_cons.1 hw with rfl | hmem
    · exact hkeeps
    · exact h.keepsBehind w hmem
  · intro w hw
    rcases List.mem_cons.1 hw with rfl | hmem
    · exact hqueries
    · exact h.queries w hmem

theorem Course.nil (limit : Tree → NodeRef → Nat) (original : Tree) (nodes : List (NodeRef × Int)) :
    Course limit original nodes [] := by
  refine ⟨⟨[], List.nil_sublist _, .nil⟩, .nil, ?_, ?_⟩
  · intro v hv
    cases hv
  · intro v hv
    cases hv

/-- Visits that move go through what is ahead, by induction on the nodes of the original tree that are
left: the nodes that are ahead now stand for these, and each visit uses up at least one of them. -/
theorem exists_walks {visit : NodeRef → Int → Attempt TreeError (Option (NodeRef × Int))}
    {limit : Tree → NodeRef → Nat}
    (hvisit : ∀ tree node depth, Moves (limit tree node) node depth (visit node depth) tree)
    {original : Tree} {left : List (NodeRef × Int)} {cursor : Option (NodeRef × Int)}
    (hleft : List.Forall₂ (original.SameFrom tree) left (tree.ahead cursor)) :
    ∃ visits outcome tree', Walks visit tree cursor visits outcome tree' ∧
      Course limit original left visits ∧
      ∀ entry ∈ cursor, ∀ v ∈ visits, entry.1.offset ≤ v.node.offset := by
  induction hlength : left.length using Nat.strongRecOn generalizing tree left cursor with
  | ind n ih =>
    cases cursor with
    | none =>
      refine ⟨[], .ok (), tree, .ends tree, .nil _ _ _, ?_⟩
      intro entry hentry
      cases hentry
    | some entry =>
      obtain ⟨node, depth⟩ := entry
      obtain ⟨origin, rest, hsame, hrest, rfl⟩ := List.forall₂_cons_right_iff.1 hleft
      have hmoves := hvisit tree node depth
      rcases hresult : (visit node depth).result tree with ⟨outcome, after⟩
      have hkeeps := hmoves.keepsBehind
      have hsuffix := hmoves.suffix
      rw [hresult] at hkeeps hsuffix
      cases outcome with
      | error e =>
        refine ⟨_, _, _, .fails hresult,
          .cons hsame hkeeps hmoves.queries (List.nil_sublist _) ?_ (.nil _ _ []), ?_⟩
        · intro w hw
          cases hw
        · rintro _ ⟨⟩ v hv
          rw [List.mem_singleton.1 hv]
      | ok cursor =>
        -- the nodes that are left stand for those behind the node in the tree after the visit, and
        -- the last of them for those ahead of the next cursor
        have hbehind := Tree.forall₂_trans (fun _ _ _ hab hbc => hab.trans hbc) hrest (hkeeps depth)
        obtain ⟨passed, hpassed⟩ := hsuffix cursor rfl
        rw [← hpassed] at hbehind
        have hnext := List.forall₂_drop_append _ _ _ hbehind
        have hshorter : (rest.drop passed.length).length < n := by
          rw [← hlength, List.length_drop, List.length_cons]
          omega
        obtain ⟨visits, outcome, tree', hwalks, hcourse, hfrom⟩ := ih _ hshorter hnext rfl
        have hahead : ∀ w ∈ visits, node.offset < w.node.offset := by
          intro w hw
          cases cursor with
          | none =>
            cases hwalks
            cases hw
          | some entry =>
            have hmem : entry ∈ (after.walkFrom node depth).nodes := by
              rw [← hpassed]
              exact List.mem_append_right _ List.mem_cons_self
            exact Nat.lt_of_lt_of_le (Tree.lt_of_mem_walkFrom hmem) (hfrom entry rfl w hw)
        refine ⟨_, _, _, .goes hresult hwalks,
          .cons hsame hkeeps hmoves.queries (List.drop_sublist _ _) hahead hcourse, ?_⟩
        rintro _ ⟨⟩ v hv
        rcases List.mem_cons.1 hv with rfl | hmem
        · exact Nat.le_refl _
        · exact Nat.le_of_lt (hahead v hmem)

end PowerDomain

/-! ## The fixup -/

namespace Tree

variable {tree : Tree} {owns : Ownership}

theorem length_ahead_first {cursor : Option (NodeRef × Int)} (h : tree.first = .ok cursor) :
    (tree.ahead cursor).length ≤ tree.structBlock.length := by
  cases hroot : tree.root with
  | error e =>
    rw [first, hroot] at h
    cases h
  | ok root =>
    rw [first, hroot] at h
    rw [ahead_of_next h]
    exact Nat.le_trans (length_walkFrom_le root 0) (Nat.sub_le _ _)

/-- An attempt of the fixup is a walk from the first node on, if there is one. -/
theorem result_apply_first (policy : Policy) (owns : Ownership) (tree : Tree) :
    match tree.first with
    | .error e => (apply policy owns).result tree = (.error e, tree) ∧
        (apply policy owns).events tree = []
    | .ok cursor =>
      (apply policy owns).result tree =
          (walk (policy.visit owns) tree.structBlock.length cursor).result tree ∧
        (apply policy owns).events tree =
          (walk (policy.visit owns) tree.structBlock.length cursor).events tree := by
  have hstart := Attempt.result_ask Tree.root tree
  unfold apply
  cases hroot : tree.root with
  | error e =>
    rw [hroot] at hstart
    rw [first, hroot, Attempt.result_bind_of_error hstart, Attempt.events_bind_of_error hstart]
    exact ⟨rfl, rfl⟩
  | ok root =>
    rw [hroot] at hstart
    have hnext := Attempt.result_ask (·.next root 0) tree
    rw [first, hroot, Attempt.result_bind_of_ok hstart, Attempt.events_bind_of_ok hstart]
    change match tree.next root 0 with | .error e => _ | .ok cursor => _
    cases hfirst : tree.next root 0 with
    | error e =>
      rw [hfirst] at hnext
      rw [Attempt.result_bind_of_error hnext, Attempt.events_bind_of_error hnext]
      exact ⟨rfl, rfl⟩
    | ok cursor =>
      rw [hfirst] at hnext
      rw [Attempt.result_bind_of_ok hnext, Attempt.events_bind_of_ok hnext,
        Attempt.result_bind_of_ok (Attempt.result_get tree),
        Attempt.events_bind_of_ok (Attempt.result_get tree)]
      exact ⟨rfl, rfl⟩

/-- The fixup leaves the tree of its attempt, and asks for what that asks for. -/
theorem result_restrict_apply (owns : Ownership) (tree : Tree) :
    Fixup.result (restrict owns) tree =
        ((), ((apply (detect tree).value owns).result tree).2) ∧
      Event.queries (restrict owns tree).events =
        Event.queries ((apply (detect tree).value owns).events tree) := by
  rcases hresult : (apply (detect tree).value owns).result tree with ⟨outcome, after⟩
  have hrun : Fixup.result (apply (detect tree).value owns).run tree = (outcome, after) := hresult
  constructor
  · rw [restrict, Fixup.result_bind, Fixup.result_get, Fixup.result_bind, Fixup.result_reported,
      Fixup.result_bind, Fixup.result_log, Fixup.result_bind, hrun]
    cases outcome <;> rfl
  · have hdetect : Event.queries (detect tree).events = [] := by
      unfold detect
      split <;> rfl
    rw [restrict, Fixup.events_bind, Fixup.result_get, Fixup.events_bind, Fixup.events_reported,
      Fixup.result_reported, Fixup.events_bind, Fixup.result_log, Fixup.events_bind, hrun,
      Event.queries_append, Event.queries_append, Event.queries_append, Event.queries_append, hdetect]
    cases outcome <;> exact List.append_nil _

/-- **The walks end.** Whatever bytes the tree consists of and whoever owns what, the fixup is an
execution of its walk that needs no bound: it goes through nodes of the tree it started with, each
further on than the last one and none of them twice, however much the disabled nodes enlarge the block.
A visit leaves all that is behind its node as it is; it asks 16 times at most under the legacy policy,
and once for each cell of the node's list under the generic one. -/
theorem exists_course_restrict (tree : Tree) (owns : Ownership) :
    match tree.first with
    | .error _ => Fixup.result (restrict owns) tree = ((), tree) ∧
        Event.queries (restrict owns tree).events = []
    | .ok cursor =>
      (tree.ahead cursor).Pairwise (fun a b => a.1.offset < b.1.offset) ∧
      ∃ visits outcome tree',
        Walks ((detect tree).value.visit owns) tree cursor visits outcome tree' ∧
        Course (detect tree).value.queryLimit tree (tree.ahead cursor) visits ∧
        visits.length ≤ tree.structBlock.length ∧
        Fixup.result (restrict owns) tree = ((), tree') ∧
        Event.queries (restrict owns tree).events =
          visits.flatMap fun v => Event.queries v.events := by
  obtain ⟨hresult, hqueries⟩ := result_restrict_apply owns tree
  have happly := result_apply_first (detect tree).value owns tree
  cases hfirst : tree.first with
  | error e =>
    rw [hfirst] at happly
    dsimp only at happly ⊢
    rw [hresult, hqueries, happly.1, happly.2]
    exact ⟨rfl, rfl⟩
  | ok cursor =>
    rw [hfirst] at happly
    obtain ⟨visits, outcome, tree', hwalks, hcourse, -⟩ :=
      exists_walks (moves_visit (detect tree).value owns) (forall₂_sameFrom tree (tree.ahead cursor))
    have hlength := Nat.le_trans hcourse.length_le (length_ahead_first hfirst)
    obtain ⟨hwalk, hevents⟩ := hwalks.result_walk hlength
    refine ⟨pairwise_ahead cursor, visits, outcome, tree', hwalks, hcourse, hlength, ?_, ?_⟩
    · rw [hresult, happly.1, hwalk]
    · rw [hqueries, happly.2, hevents, Event.queries, List.filterMap_flatMap]
      rfl

end Tree

/-! ## References in a circle -/

namespace PowerDomain

/-- A power domain that refers to itself, and a serial port in it. -/
def circularDocument : Document where
  name := []
  properties := []
  children :=
    .node "serial@5a060000" [⟨listProperty, Cells.encode [7]⟩] .nil
    (.node "PD_DMA" [⟨"phandle", Cells.encode [7]⟩, ⟨"reg", Cells.encode [42]⟩,
      ⟨listProperty, Cells.encode [7]⟩] .nil .nil)

-- Each of the two nodes is asked for as often as the limit allows.
example : (Event.queries (restrict (fun _ => true) (circularDocument.write
    (StringList.join ["phandle", "reg", listProperty]) 0)).events).length = 16 + 16 := by
  decide +kernel

end PowerDomain

end BootTree
