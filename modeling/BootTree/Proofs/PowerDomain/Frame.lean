import BootTree.PowerDomain.Restrict
import BootTree.Proofs.Fixup.Keeping

/-!
# BootTree.Proofs.PowerDomain.Frame

What the fixup of power domains leaves alone, whatever the tree it is run on. All that it writes are
statuses, so a property of runs holds of the fixup as soon as it holds of questions about resources
and of disabling a node.

* `PowerDomain.StepsKeep`: what has to be known of these steps.
* `PowerDomain.StepsKeep.keeps_restrict`: the whole fixup, function by function.
-/

namespace BootTree

namespace PowerDomain

variable {R : Tree → List Event → Tree → Prop}

theorem keeps_disableUnowned (hR : Cumulative R) {node : NodeRef}
    (hdisable : Attempt.Keeps R (disable node)) (resource : Resource) :
    Fixup.Keeps R (disableUnowned node resource) := by
  refine .bind hR hdisable ?_
  intro outcome
  refine .bind hR (.get hR) ?_
  intro tree
  cases outcome with
  | ok _ => exact .log hR _ _ _
  | error e => exact .log hR _ _ _

/-- What has to be known of the questions and the writes of the fixup. -/
structure StepsKeep (R : Tree → List Event → Tree → Prop) : Prop extends Cumulative R where
  reported : ∀ tree events, R tree events tree
  disable : ∀ node, Attempt.Keeps R (disable node)

namespace StepsKeep

theorem keeps_check (h : StepsKeep R) (owns : Ownership)
    (demand : Tree → NodeRef → Plan Resource) (node : NodeRef) :
    Attempt.Keeps R (check owns demand node) := by
  have hR := h.toCumulative
  refine .bind hR (.get hR) ?_
  intro tree
  refine .bind hR (Fixup.Keeps.reported fun tree => h.reported tree _) ?_
  intro found
  cases found with
  | none => exact .pure hR ()
  | some resource => exact .lift (keeps_disableUnowned hR (h.disable node) resource)

theorem keeps_visit (h : StepsKeep R) (policy : Policy) (owns : Ownership) (node : NodeRef)
    (depth : Int) : Attempt.Keeps R (policy.visit owns node depth) := by
  have hR := h.toCumulative
  have hlog : Attempt.Keeps R (liftM (logVisit node depth) : Attempt TreeError Unit) := by
    apply Attempt.Keeps.lift
    refine .bind hR (.get hR) ?_
    intro tree
    exact .log hR _ _ _
  cases policy with
  | legacy =>
    refine .bind hR hlog ?_
    intro _
    refine .bind hR (.get hR) ?_
    intro tree
    split
    · refine .bind hR (Attempt.Keeps.lift (.log hR _ _ _)) ?_
      intro _
      exact .ask hR _
    · split
      · exact .ask hR _
      · exact .bind hR (h.keeps_check owns _ node) fun _ => .ask hR _
  | generic =>
    refine .bind hR hlog ?_
    intro _
    refine .bind hR (.ask hR _) ?_
    intro list
    refine .bind hR (.get hR) ?_
    intro tree
    split
    · exact .bind hR (h.keeps_check owns _ node) fun _ => .ask hR _
    · exact .ask hR _

theorem keeps_walk (h : StepsKeep R) (policy : Policy) (owns : Ownership) (visits : Nat)
    (cursor : Option (NodeRef × Int)) :
    Attempt.Keeps R (walk (policy.visit owns) visits cursor) := by
  have hR := h.toCumulative
  induction visits generalizing cursor with
  | zero => cases cursor <;> exact .pure hR ()
  | succ visits ih =>
    cases cursor with
    | none => exact .pure hR ()
    | some cursor => exact .bind hR (h.keeps_visit policy owns cursor.1 cursor.2) ih

theorem keeps_apply (h : StepsKeep R) (policy : Policy) (owns : Ownership) :
    Attempt.Keeps R (apply policy owns) := by
  have hR := h.toCumulative
  refine .bind hR (.ask hR _) ?_
  intro root
  refine .bind hR (.ask hR _) ?_
  intro first
  refine .bind hR (.get hR) ?_
  intro tree
  exact h.keeps_walk policy owns _ first

/-- A property of all runs of the fixup, from the nodes that it disables. -/
theorem keeps_restrict (h : StepsKeep R) (owns : Ownership) : Fixup.Keeps R (restrict owns) := by
  have hR := h.toCumulative
  refine .bind hR (.get hR) ?_
  intro tree
  refine .bind hR (.reported fun tree => h.reported tree _) ?_
  intro policy
  refine .bind hR (.log hR _ _ _) ?_
  intro _
  refine .bind hR (h.keeps_apply policy owns) ?_
  intro outcome
  cases outcome with
  | ok _ => exact .pure hR ()
  | error e => exact .log hR _ _ _

end StepsKeep

end PowerDomain

end BootTree
