import BootTree.Proofs.Image.Atomic
import BootTree.Proofs.PowerDomain.Frame
import BootTree.Proofs.PowerDomain.Restrict
import BootTree.Proofs.Tree.Behind

/-!
# BootTree.Proofs.PowerDomain.Moves

One visit of the walks over the power domains, in a tree of any bytes. It may disable its own node,
but it leaves the nodes behind that node as they are, and the walk goes on at one of these.

* `PowerDomain.Moves`: what is done at one node.
* `PowerDomain.Moves.check`: a check of the node, and on to the next one.
* `PowerDomain.moves_visit`: both policies do this.
-/

namespace BootTree

namespace PowerDomain

/-- A step of a visit leaves the nodes behind its own, and a visit goes on at one of these or comes to
its end. It asks for few resources on the way. -/
structure Moves (limit : Nat) (node : NodeRef) (depth : Int)
    (x : Attempt TreeError (Option (NodeRef × Int))) (tree : Tree) : Prop where
  keepsBehind : tree.KeepsBehind (x.result tree).2 node
  queries : (Event.queries (x.events tree)).length ≤ limit
  suffix : ∀ cursor, (x.result tree).1 = .ok cursor →
    (x.result tree).2.ahead cursor <:+ ((x.result tree).2.walkFrom node depth).nodes

variable {limit : Nat} {node : NodeRef} {depth : Int} {tree tree' : Tree} {owns : Ownership}

namespace Moves

theorem ask {query : Tree → Except TreeError (Option (NodeRef × Int))}
    (h : ∀ cursor, query tree = .ok cursor →
      tree.ahead cursor <:+ (tree.walkFrom node depth).nodes) :
    Moves limit node depth (Attempt.ask query) tree :=
  ⟨.of_structBlock rfl node, Nat.zero_le _, h⟩

theorem next : Moves limit node depth (Attempt.ask (·.next node depth)) tree :=
  ask fun _ hnext => by rw [Tree.ahead_of_next hnext]

theorem bind {α : Type} {x : Attempt TreeError α} {a : α} {rest : Nat}
    {f : α → Attempt TreeError (Option (NodeRef × Int))} (hx : x.result tree = (.ok a, tree'))
    (hkeeps : tree.KeepsBehind tree' node)
    (hqueries : (Event.queries (x.events tree)).length + rest ≤ limit)
    (hf : Moves rest node depth (f a) tree') : Moves limit node depth (x >>= f) tree := by
  refine ⟨?_, ?_, ?_⟩
  · rw [Attempt.result_bind_of_ok hx]
    exact hkeeps.trans hf.keepsBehind
  · have hrest := hf.queries
    rw [Attempt.events_bind_of_ok hx, Event.queries_append, List.length_append]
    omega
  · rw [Attempt.result_bind_of_ok hx]
    exact hf.suffix

/-- First something that neither asks nor writes. -/
theorem silent {α : Type} {x : Attempt TreeError α} {a : α}
    {f : α → Attempt TreeError (Option (NodeRef × Int))} (hx : x.result tree = (.ok a, tree))
    (hqueries : Event.queries (x.events tree) = []) (hf : Moves limit node depth (f a) tree) :
    Moves limit node depth (x >>= f) tree := by
  refine bind hx (.of_structBlock rfl node) ?_ hf
  rw [hqueries]
  exact Nat.le_of_eq (Nat.zero_add _)

theorem failed {α : Type} {x : Attempt TreeError α} {e : TreeError}
    (hx : x.result tree = (.error e, tree'))
    (hkeeps : tree.KeepsBehind tree' node)
    (hqueries : (Event.queries (x.events tree)).length ≤ limit)
    (f : α → Attempt TreeError (Option (NodeRef × Int))) :
    Moves limit node depth (x >>= f) tree := by
  refine ⟨?_, ?_, ?_⟩
  · rw [Attempt.result_bind_of_error hx]
    exact hkeeps
  · rw [Attempt.events_bind_of_error hx]
    exact hqueries
  · rw [Attempt.result_bind_of_error hx]
    rintro cursor ⟨⟩

end Moves

/-! ## Disabling the node -/

/-- Runs that leave what is behind a node, and that ask for nothing. -/
def Quiet (node : NodeRef) (tree : Tree) (events : List Event) (tree' : Tree) : Prop :=
  tree.KeepsBehind tree' node ∧ Event.queries events = []

theorem cumulative_quiet (node : NodeRef) : Cumulative (Quiet node) where
  start tree := ⟨.of_structBlock rfl node, rfl⟩
  append h h' := by
    refine ⟨h.1.trans h'.1, ?_⟩
    rw [Event.queries_append]
    exact List.append_eq_nil_iff.2 ⟨h.2, h'.2⟩
  logged tree _ := ⟨.of_structBlock rfl node, rfl⟩

theorem quiet_disableUnowned (node : NodeRef) (resource : Resource) :
    Fixup.Keeps (Quiet node) (disableUnowned node resource) := by
  have hR := cumulative_quiet node
  refine keeps_disableUnowned hR (.withGrowth hR (.edit ?_ ?_) (.edit ?_ ?_)) resource
  · intro tree _ tree' h
    exact ⟨Tree.keepsBehind_setValue (by decide) h, rfl⟩
  · intro tree err tree' h
    rw [(Tree.atomic_setValue _ _ _ tree err tree' h).1]
    exact hR.start tree
  · intro tree _ tree' h
    refine ⟨.of_structBlock ?_ node, rfl⟩
    rcases tree.grow_cases growIncrement with ⟨limit, hlimit⟩ | hgrown
    · rw [hlimit] at h
      cases h
    · rw [hgrown] at h
      cases h
      rfl
  · intro tree err tree' h
    rw [(Tree.atomic_grow _ tree err tree' h).1]
    exact hR.start tree

/-! ## Asking for resources -/

theorem length_queries_firstUnowned (owns : Ownership) (plan : Plan Resource) :
    (Event.queries (firstUnowned owns plan).events).length ≤ plan.requests.length := by
  induction plan with
  | nil => exact Nat.le_refl _
  | cons step rest ih =>
    cases step with
    | note record => exact ih
    | fail e => exact Nat.le_refl _
    | ask resource =>
      rw [firstUnowned, Plan.requests]
      split
      · exact Nat.succ_le_succ ih
      · exact Nat.succ_le_succ (Nat.zero_le _)

/-- However references go in circles, a chain asks once for each of them at most. -/
theorem length_requests_chainFrom (tree : Tree) (device : NodeRef) (links : Nat) (current : NodeRef) :
    (chainFrom tree device links current).requests.length ≤ links := by
  induction links generalizing current with
  | zero => exact Nat.le_refl _
  | succ links ih =>
    rw [chainFrom]
    cases link tree current with
    | ends record => cases record <;> exact Nat.zero_le _
    | broken e => exact Nat.zero_le _
    | domain domain resource =>
      dsimp only
      rw [requests_note_append, Plan.requests, List.length_cons]
      split
      · exact Nat.succ_le_succ (Nat.zero_le _)
      · exact Nat.succ_le_succ (ih domain)

theorem length_requests_entryDemand (target name : String) (mask : UInt32)
    (list : Except TreeError SlotList) (indices : List Nat) :
    (entryDemand target name mask list indices).requests.length ≤ indices.length := by
  fun_induction entryDemand target name mask list indices with
  | case1 | case3 => exact Nat.zero_le _
  | case2 index rest hmasked ih => exact Nat.le_succ_of_le ih
  | case4 index rest hmasked e hentry he ih => exact Nat.le_succ_of_le ih
  | case5 index rest hmasked node hentry ih => exact Nat.le_succ_of_le ih
  | case6 index rest hmasked node resource args hentry ih => exact Nat.succ_le_succ ih

theorem length_requests_listDemand (tree : Tree) (node : NodeRef) :
    (listDemand tree node).requests.length ≤ listLength tree node := by
  have hentries (mask : UInt32) := length_requests_entryDemand logTarget (tree.nameText node) mask
    (tree.readSlots node listProperty argumentRule) (List.range (listLength tree node))
  rw [List.length_range] at hentries
  unfold listDemand
  dsimp only
  split
  · exact hentries _
  · exact hentries 0

/-- A check of the node, and on to the next one. -/
theorem Moves.check {demand : Tree → NodeRef → Plan Resource}
    (hlimit : (demand tree node).requests.length ≤ limit) :
    Moves limit node depth (PowerDomain.check owns demand node >>= fun _ =>
      Attempt.ask (·.next node depth)) tree := by
  have hasked := Nat.le_trans (length_queries_firstUnowned owns (demand tree node)) hlimit
  have hkeeps : tree.KeepsBehind tree node := .of_structBlock rfl node
  unfold PowerDomain.check
  rw [bind_assoc]
  refine silent (Attempt.result_get tree) rfl ?_
  rw [bind_assoc]
  have hresult := Attempt.result_reported (firstUnowned owns (demand tree node)) tree
  have hevents := Attempt.events_reported (firstUnowned owns (demand tree node)) tree
  rw [← hevents] at hasked
  cases hfound : (firstUnowned owns (demand tree node)).value with
  | error e =>
    rw [hfound] at hresult
    exact failed hresult hkeeps hasked _
  | ok found =>
    rw [hfound] at hresult
    refine bind hresult hkeeps (Nat.le_trans (Nat.le_of_eq (Nat.add_zero _)) hasked) ?_
    cases found with
    | none => exact silent (Attempt.result_pure () tree) rfl next
    | some resource =>
      obtain ⟨hbehind, hquiet⟩ := quiet_disableUnowned node resource tree
      generalize hdisabled : Fixup.result (disableUnowned node resource) tree = disabled at hbehind
      have hnext : Moves 0 node depth (Attempt.ask (·.next node depth)) disabled.2 := next
      refine bind (Attempt.result_lift hdisabled) hbehind ?_ hnext
      rw [Attempt.events_lift, hquiet]
      exact Nat.le_refl _

/-! ## Both policies -/

/-- How often a visit of a node may ask: for every domain of the longest chain, or for every cell of
the node's list. -/
def Policy.queryLimit : Policy → Tree → NodeRef → Nat
  | legacy, _, _ => 16
  | generic, tree, node => listLength tree node

theorem moves_visit (policy : Policy) (owns : Ownership) (tree : Tree) (node : NodeRef) (depth : Int) :
    Moves (policy.queryLimit tree node) node depth (policy.visit owns node depth) tree := by
  cases policy with
  | legacy =>
    refine .silent (Progress.result_logVisit node depth tree) rfl ?_
    refine .silent (Attempt.result_get tree) rfl ?_
    split
    · exact .silent (Attempt.result_lift (Fixup.result_log _ _ _ tree)) rfl .next
    · split
      · exact .ask fun _ hfind => Tree.ahead_suffix_of_find? hfind
      · exact .check (length_requests_chainFrom tree node maxChain node)
  | generic =>
    refine .silent (Progress.result_logVisit node depth tree) rfl ?_
    have hlist := Attempt.result_ask (·.value node listProperty) tree
    cases hvalue : tree.value node listProperty with
    | error e =>
      rw [hvalue] at hlist
      exact .failed hlist (.of_structBlock rfl node) (Nat.zero_le _) _
    | ok list =>
      rw [hvalue] at hlist
      refine .silent hlist rfl ?_
      refine .silent (Attempt.result_get tree) rfl ?_
      split
      · exact .check (length_requests_listDemand tree node)
      · exact .next

end PowerDomain

end BootTree
