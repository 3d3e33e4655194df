import BootTree.Proofs.Fixup.Growth

/-!
# BootTree.Proofs.Fixup.Keeping

What every run of a fixup keeps, whatever the tree it is run on. Such a property relates the tree
before a run to the events of the run and to the tree after it. If it holds of doing nothing and of
one run after another, then it holds of a fixup as soon as it holds of its edits and of its
questions.

* `Cumulative`: the properties in question.
* `Fixup.KeepsAt`, `Attempt.KeepsAt`: the run on a given tree has a property.
* `Fixup.Keeps`, `Attempt.Keeps`: all runs have it.
* `Attempt.Keeps.withGrowth`: an edit with a second try.
-/

namespace BootTree

/-- A property of runs that goes from two runs to the one that makes both, and that logging has no
part in. -/
structure Cumulative (R : Tree → List Event → Tree → Prop) : Prop where
  start (tree : Tree) : R tree [] tree
  append {tree tree' tree'' : Tree} {events events' : List Event} :
    R tree events tree' → R tree' events' tree'' → R tree (events ++ events') tree''
  logged (tree : Tree) (record : Log.Record) : R tree [.logged record] tree

variable {R : Tree → List Event → Tree → Prop} {α β ε ε' : Type}

/-! ## Fixups -/

namespace Fixup

def KeepsAt (R : Tree → List Event → Tree → Prop) (x : Fixup α) (tree : Tree) : Prop :=
  R tree (x tree).events (result x tree).2

def Keeps (R : Tree → List Event → Tree → Prop) (x : Fixup α) : Prop := ∀ tree, KeepsAt R x tree

theorem KeepsAt.bind (hR : Cumulative R) {x : Fixup α} {f : α → Fixup β} {tree : Tree}
    (hx : KeepsAt R x tree) (hf : KeepsAt R (f (result x tree).1) (result x tree).2) :
    KeepsAt R (x >>= f) tree := by
  unfold KeepsAt
  rw [result_bind]
  exact hR.append hx hf

theorem KeepsAt.map {x : Fixup α} {tree : Tree} (h : KeepsAt R x tree) (f : α → β) :
    KeepsAt R (f <$> x) tree := by
  have hevents : ((f <$> x) tree).events = (x tree).events := List.append_nil _
  rw [KeepsAt, hevents]
  exact h

namespace Keeps

theorem pure (hR : Cumulative R) (a : α) : Keeps R (pure a : Fixup α) := fun tree => hR.start tree

theorem bind (hR : Cumulative R) {x : Fixup α} {f : α → Fixup β} (hx : Keeps R x)
    (hf : ∀ a, Keeps R (f a)) : Keeps R (x >>= f) := fun tree => (hx tree).bind hR (hf _ _)

theorem ask (hR : Cumulative R) (query : Tree → α) : Keeps R (ask query) := fun tree => hR.start tree

theorem get (hR : Cumulative R) : Keeps R (get : Fixup Tree) := fun tree => hR.start tree

theorem log (hR : Cumulative R) (level : Log.Level) (target message : String) :
    Keeps R (log level target message) := fun tree => hR.logged tree _

/-- What answers without the tree only adds its events. -/
theorem reported {x : Reported α} (h : ∀ tree, R tree x.events tree) :
    Keeps R (liftM x : Fixup α) := by
  intro tree
  rw [KeepsAt, events_reported, result_reported]
  exact h tree

theorem tell {events : List Event} (h : ∀ tree, R tree events tree) : Keeps R (tell events) :=
  reported h

theorem edit {e : Edit α} (hok : ∀ tree a tree', e tree = .ok a tree' → R tree [] tree')
    (herror : ∀ tree err tree', e tree = .error err tree' → R tree [] tree') :
    Keeps R (edit e) := by
  intro tree
  cases hrun : e tree with
  | ok a tree' =>
    rw [KeepsAt, result_edit_of_ok hrun, Fixup.edit, hrun]
    exact hok tree a tree' hrun
  | error err tree' =>
    rw [KeepsAt, result_edit_of_error hrun, Fixup.edit, hrun]
    exact herror tree err tree' hrun

theorem forM (hR : Cumulative R) {f : α → Fixup Unit} {l : List α} (h : ∀ a ∈ l, Keeps R (f a)) :
    Keeps R (l.forM f) := by
  induction l with
  | nil => exact pure hR ()
  | cons a rest ih =>
    refine bind hR (h a List.mem_cons_self) ?_
    intro _
    apply ih
    intro b hb
    exact h b (List.mem_cons_of_mem _ hb)

end Keeps

end Fixup

/-! ## Attempts -/

namespace Attempt

def KeepsAt (R : Tree → List Event → Tree → Prop) (x : Attempt ε α) (tree : Tree) : Prop :=
  Fixup.KeepsAt R x.run tree

def Keeps (R : Tree → List Event → Tree → Prop) (x : Attempt ε α) : Prop := ∀ tree, KeepsAt R x tree

theorem KeepsAt.bind (hR : Cumulative R) {x : Attempt ε α} {f : α → Attempt ε β} {tree : Tree}
    (hx : KeepsAt R x tree)
    (hf : ∀ a, (result x tree).1 = .ok a → KeepsAt R (f a) (result x tree).2) :
    KeepsAt R (x >>= f) tree := by
  refine Fixup.KeepsAt.bind hR hx ?_
  change Fixup.KeepsAt R (ExceptT.bindCont f (result x tree).1) (result x tree).2
  cases houtcome : (result x tree).1 with
  | ok a => exact hf a houtcome
  | error e => exact hR.start _

theorem KeepsAt.lift {x : Fixup α} {tree : Tree} (h : Fixup.KeepsAt R x tree) :
    KeepsAt R (liftM x : Attempt ε α) tree := h.map Except.ok

namespace Keeps

theorem pure (hR : Cumulative R) (a : α) : Keeps R (pure a : Attempt ε α) :=
  Fixup.Keeps.pure hR (Except.ok a)

theorem throw (hR : Cumulative R) (e : ε) : Keeps R (throw e : Attempt ε α) :=
  Fixup.Keeps.pure hR (Except.error e : Except ε α)

theorem bind (hR : Cumulative R) {x : Attempt ε α} {f : α → Attempt ε β} (hx : Keeps R x)
    (hf : ∀ a, Keeps R (f a)) : Keeps R (x >>= f) :=
  fun tree => (hx tree).bind hR fun a _ => hf a _

theorem lift {x : Fixup α} (h : Fixup.Keeps R x) : Keeps R (liftM x : Attempt ε α) :=
  fun tree => KeepsAt.lift (h tree)

theorem ask (hR : Cumulative R) (query : Tree → Except TreeError α) : Keeps R (ask query) :=
  Fixup.Keeps.ask hR query

theorem get (hR : Cumulative R) : Keeps R (get : Attempt ε Tree) := lift (Fixup.Keeps.get hR)

theorem mapError (hR : Cumulative R) {x : Attempt ε α} (f : ε → ε') (h : Keeps R x) :
    Keeps R (mapError f x) := by
  refine Fixup.Keeps.bind hR h ?_
  intro outcome
  exact Fixup.Keeps.pure hR _

theorem withGrowth (hR : Cumulative R) {e : Edit α} (hedit : Fixup.Keeps R (Fixup.edit e))
    (hgrow : Fixup.Keeps R (Fixup.edit (Tree.grow growIncrement))) : Keeps R (withGrowth e) := by
  refine Fixup.Keeps.bind hR hedit ?_
  intro outcome
  split
  · refine Fixup.Keeps.bind hR (Fixup.Keeps.log hR _ _ _) ?_
    intro _
    refine Fixup.Keeps.bind hR hgrow ?_
    intro grown
    cases grown with
    | error err => exact Fixup.Keeps.pure hR _
    | ok _ => exact hedit
  · exact Fixup.Keeps.pure hR _

end Keeps

end Attempt

end BootTree
