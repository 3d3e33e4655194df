import BootTree.Proofs.Fixup.Growth

/-!
# BootTree.Proofs.Fixup.Leading

From what holds of a tree before a fixup to what holds of the tree after it. A fixup that may fail has
two ends, and what holds where it fails is said apart.

* `Fixup.Leads`, `Attempt.Leads`: what a run leads to.
* `Attempt.Leads.bind`: one after another.
* `Attempt.Leads.optional`: a step that is only made on some condition.
-/

namespace BootTree

variable {α β ε ε' : Type} {P P' E E' : Tree → Prop}

/-- From a tree with `P`, the fixup leads to an answer and a tree with `Q`. -/
def Fixup.Leads (P : Tree → Prop) (x : Fixup α) (Q : α → Tree → Prop) : Prop :=
  ∀ tree, P tree → Q (result x tree).1 (result x tree).2

namespace Attempt

/-- From a tree with `P`, the attempt leads to an answer and a tree with `Q`, or it fails and leads to
a tree with `E`. -/
def Leads (P : Tree → Prop) (x : Attempt ε α) (Q : α → Tree → Prop) (E : Tree → Prop) : Prop :=
  ∀ tree, P tree →
    (∃ a after, x.result tree = (.ok a, after) ∧ Q a after) ∨
      ∃ e after, x.result tree = (.error e, after) ∧ E after

namespace Leads

variable {Q Q' : α → Tree → Prop} {S : β → Tree → Prop} {x : Attempt ε α}

theorem pure {a : α} (h : ∀ tree, P tree → Q a tree) : Leads P (pure a : Attempt ε α) Q E := by
  intro tree htree
  exact .inl ⟨a, tree, rfl, h tree htree⟩

theorem bind {f : α → Attempt ε β} (hx : Leads P x Q E) (hf : ∀ a, Leads (Q a) (f a) S E) :
    Leads P (x >>= f) S E := by
  intro tree htree
  rcases hx tree htree with ⟨a, after, hresult, ha⟩ | ⟨e, after, hresult, he⟩
  · rw [result_bind_of_ok hresult]
    exact hf a after ha
  · rw [result_bind_of_error hresult]
    exact .inr ⟨e, after, rfl, he⟩

theorem weaken (h : Leads P x Q E) (hQ : ∀ a tree, Q a tree → Q' a tree)
    (hE : ∀ tree, E tree → E' tree) : Leads P x Q' E' := by
  intro tree htree
  rcases h tree htree with ⟨a, after, hresult, ha⟩ | ⟨e, after, hresult, he⟩
  · exact .inl ⟨a, after, hresult, hQ a after ha⟩
  · exact .inr ⟨e, after, hresult, hE after he⟩

theorem failing (h : Leads P x Q E) (hE : ∀ tree, E tree → E' tree) : Leads P x Q E' :=
  h.weaken (fun _ _ => id) hE

theorem lift {x : Fixup α} (h : x.Leads P Q) : Leads P (liftM x : Attempt ε α) Q E := by
  intro tree htree
  exact .inl ⟨_, _, result_lift rfl, h tree htree⟩

theorem get (h : ∀ tree, P tree → P' tree) :
    Leads P (get : Attempt ε Tree) (fun _ => P') E := by
  intro tree htree
  exact .inl ⟨tree, tree, rfl, h tree htree⟩

theorem edit {e : Edit α} (hok : ∀ tree a tree', P tree → e tree = .ok a tree' → Q a tree')
    (herror : ∀ tree err tree', P tree → e tree = .error err tree' → E tree') :
    Leads P (Attempt.edit e : Attempt TreeError α) Q E := by
  intro tree htree
  cases hrun : e tree with
  | ok a tree' => exact .inl ⟨a, tree', Fixup.result_edit_of_ok hrun, hok tree a tree' htree hrun⟩
  | error err tree' =>
    exact .inr ⟨err, tree', Fixup.result_edit_of_error hrun, herror tree err tree' htree hrun⟩

theorem ask {query : Tree → Except TreeError α}
    (hok : ∀ tree a, P tree → query tree = .ok a → Q a tree)
    (herror : ∀ tree, P tree → E tree) : Leads P (Attempt.ask query) Q E := by
  intro tree htree
  rw [result_ask]
  cases hquery : query tree with
  | ok a => exact .inl ⟨a, tree, rfl, hok tree a htree hquery⟩
  | error e => exact .inr ⟨e, tree, rfl, herror tree htree⟩

theorem mapError (f : ε → ε') (h : Leads P x Q E) : Leads P (Attempt.mapError f x) Q E := by
  intro tree htree
  rcases h tree htree with ⟨a, after, hresult, ha⟩ | ⟨e, after, hresult, he⟩
  · exact .inl ⟨a, after, result_mapError_of_ok hresult f, ha⟩
  · exact .inr ⟨f e, after, result_mapError_of_error hresult f, he⟩

/-- What holds of the tree after the run holds at both ends. -/
theorem ofAfter (h : ∀ tree, P tree → E (x.result tree).2) : Leads P x (fun _ => E) E := by
  intro tree htree
  have hafter := h tree htree
  rcases hresult : x.result tree with ⟨outcome, left⟩
  rw [hresult] at hafter
  cases outcome with
  | ok a => exact .inl ⟨a, left, rfl, hafter⟩
  | error e => exact .inr ⟨e, left, rfl, hafter⟩

/-- What holds at both ends holds of the tree after the run. -/
theorem after (h : Leads P x (fun _ => E) E) : x.run.Leads P fun _ => E := by
  intro tree htree
  rcases h tree htree with ⟨a, after, hresult, ha⟩ | ⟨e, after, hresult, he⟩
  all_goals
    unfold result at hresult
    rw [hresult]
    assumption

/-- A step that is only made on some condition, and what is done afterwards in any case. -/
theorem optional {c : Prop} [Decidable c] {x : Attempt ε Unit} {f : Unit → Attempt ε β}
    (hx : Leads P x (fun _ => P) E) (hf : Leads P (f ()) S E) :
    Leads P (if c then x >>= f else f ()) S E := by
  split
  · exact hx.bind fun _ => hf
  · exact hf

end Leads

end Attempt

end BootTree
