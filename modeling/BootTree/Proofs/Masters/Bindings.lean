import BootTree.Masters.Bind
import BootTree.Proofs.Document.Written
import BootTree.Proofs.Masters.Resources
import BootTree.Proofs.PowerDomain.Restrict

/-!
# BootTree.Proofs.Masters.Bindings

Which bindings of bus masters are requested, and when that ends. The document and the controller
decide it: the document says what is wanted, in which order, and the controller's answers say at which
request the sequence is cut off.

* `Document.bindings`: what a document wants.
* `Controller.CutsOff`: which part of that is requested, and the outcome.
* `Tree.Stores.bindings`, `Masters.carryOut_cutsOff`: the plan of a tree, and carrying out a plan.
* `Tree.bindMasters_cutsOff`: all of it for a tree.
-/

namespace BootTree

open Masters

/-! ## What a document wants -/

namespace Document

variable (doc : Document)

/-- The list of masters of the first memory management unit for devices, if it has one. -/
def masterList? : Option Bytes :=
  ((List.range doc.forest.size).find? (doc.isCompatible · unitCompatible)).bind
    (doc.value? · "mmu-masters")

/-- What a pair of a list of masters wants; nothing, if there is no such node. -/
def listedBindings (phandle : UInt32) (stream : StreamId) : List Binding :=
  match doc.findRaw phandle with
  | .ok (some i) => (doc.resources i).map (⟨·, stream⟩)
  | _ => []

/-- What a node wants with its own property, if that has three cells. -/
def ownBindings (i : Nat) : List Binding :=
  match doc.value? i "iommus" with
  | some raw => if raw.length = 12 then (doc.resources i).map (⟨·, cellAt raw 1⟩) else []
  | none => []

/-- The wanted bindings, in order. Only where there is no list of masters, the nodes below the root
are looked at. -/
def bindings : List Binding :=
  match doc.masterList? with
  | some raw => (List.range (raw.length / 8)).flatMap fun k =>
      doc.listedBindings (cellAt raw (2 * k)) (cellAt raw (2 * k + 1))
  | none => (List.range' 1 (doc.forest.size - 1)).flatMap doc.ownBindings

end Document

/-! ## What is requested of it -/

namespace Controller

variable (controller : Controller)

/-- The request of an index fails, and the controller says that its resource is owned. -/
def FailsAt (earlier wanted : List Binding) (k : Nat) (e : ControllerError) : Prop :=
  ∃ binding, wanted[k]? = some binding ∧
    controller.bind (earlier ++ wanted.take k) binding = .error e ∧
    controller.owns (earlier ++ wanted.take (k + 1)) binding.resource = true

/-- The wanted bindings are requested in order, up to the first one that fails on an owned resource,
with its error as the outcome. -/
def CutsOff (earlier wanted requested : List Binding) (outcome : Except SetupError Unit) : Prop :=
  (∃ k e, controller.FailsAt earlier wanted k e ∧
    (∀ j < k, ∀ e', ¬ controller.FailsAt earlier wanted j e') ∧
    requested = wanted.take (k + 1) ∧ outcome = .error (.binding e)) ∨
  ((∀ k e, ¬ controller.FailsAt earlier wanted k e) ∧ requested = wanted ∧ outcome = .ok ())

variable {controller} {earlier wanted requested : List Binding} {binding : Binding}
  {outcome : Except SetupError Unit} {e : ControllerError} {k : Nat}

theorem failsAt_zero_iff :
    controller.FailsAt earlier (binding :: wanted) 0 e ↔
      controller.bind earlier binding = .error e ∧
        controller.owns (earlier ++ [binding]) binding.resource = true := by
  simp [FailsAt]

theorem failsAt_succ_iff :
    controller.FailsAt earlier (binding :: wanted) (k + 1) e ↔
      controller.FailsAt (earlier ++ [binding]) wanted k e := by
  simp [FailsAt]

/-- A request that fails on an owned resource is the last one. -/
theorem CutsOff.stop (h : controller.FailsAt earlier (binding :: wanted) 0 e) :
    controller.CutsOff earlier (binding :: wanted) [binding] (.error (.binding e)) :=
  .inl ⟨0, e, h, fun _ hlt => absurd hlt (Nat.not_lt_zero _), rfl, rfl⟩

/-- Behind any other request it goes on. -/
theorem CutsOff.cons (hgoes : ∀ e, ¬ controller.FailsAt earlier (binding :: wanted) 0 e)
    (h : controller.CutsOff (earlier ++ [binding]) wanted requested outcome) :
    controller.CutsOff earlier (binding :: wanted) (binding :: requested) outcome := by
  rcases h with ⟨k, e, hfails, hfirst, rfl, rfl⟩ | ⟨hnone, rfl, rfl⟩
  · refine .inl ⟨k + 1, e, failsAt_succ_iff.2 hfails, ?_, rfl, rfl⟩
    intro j hj e' hfails'
    cases j with
    | zero => exact hgoes e' hfails'
    | succ j => exact hfirst j (Nat.lt_of_succ_lt_succ hj) e' (failsAt_succ_iff.1 hfails')
  · refine .inr ⟨?_, rfl, rfl⟩
    intro k e hfails
    cases k with
    | zero => exact hgoes e hfails
    | succ k => exact hnone k e (failsAt_succ_iff.1 hfails)

end Controller

namespace Masters

variable {controller : Controller} {earlier wanted : List Binding} {binding : Binding}
  {plan : Plan Binding}

/-- Carrying out a plan that cannot fail on its own requests what the plan asks for, until the
controller's answers cut it off. -/
theorem carryOut_cutsOff (controller : Controller) (earlier : List Binding)
    (hplan : plan.AsksFor wanted) :
    controller.CutsOff earlier wanted (Event.requests (carryOut controller earlier plan).events)
      (carryOut controller earlier plan).value := by
  obtain ⟨rfl, hfailure⟩ := hplan
  induction plan generalizing earlier with
  | nil =>
    refine .inr ⟨?_, rfl, rfl⟩
    rintro k e ⟨binding, hbinding, -⟩
    cases hbinding
  | cons step rest ih =>
    cases step with
    | note record => exact ih earlier hfailure
    | fail e => cases hfailure
    | ask binding =>
      have hrest := ih (earlier ++ [binding]) hfailure
      cases hanswer : controller.bind earlier binding with
      | ok _ =>
        have hgoes : ∀ e, ¬ controller.FailsAt earlier (binding :: Plan.requests rest) 0 e := by
          intro e hfails
          rw [Controller.failsAt_zero_iff, hanswer] at hfails
          cases hfails.1
        simp only [carryOut, hanswer, Reported.events_bind, Reported.value_bind]
        exact hrest.cons hgoes
      | error e =>
        simp only [carryOut, hanswer, Reported.events_bind, Reported.value_bind]
        by_cases howned : controller.owns (earlier ++ [binding]) binding.resource = true
        · rw [if_pos howned]
          exact .stop (Controller.failsAt_zero_iff.2 ⟨hanswer, howned⟩)
        · have hgoes : ∀ e, ¬ controller.FailsAt earlier (binding :: Plan.requests rest) 0 e := by
            intro e hfails
            exact howned (Controller.failsAt_zero_iff.1 hfails).2
          rw [if_neg howned]
          exact hrest.cons hgoes

/-! ## The plan of a tree -/

theorem readMasters_map_range (cell : Nat → UInt32) (n : Nat) :
    readMasters ((List.range n).map cell) =
      (List.range (n / 2)).map fun k => ⟨cell (2 * k), cell (2 * k + 1)⟩ := by
  induction n using Nat.strongRecOn generalizing cell with
  | ind n ih =>
    match n with
    | 0 | 1 => rfl
    | n + 2 =>
      have hhalf : (n + 2) / 2 = n / 2 + 1 := by omega
      have hrest := ih n (by omega) fun k => cell (k + 2)
      rw [hhalf, List.range_succ_eq_map, List.range_succ_eq_map, List.range_succ_eq_map]
      simp only [List.map_cons, List.map_map, readMasters]
      refine congrArg _ ?_
      exact hrest

/-- The pairs of a list of masters. -/
theorem readMasters_whole (raw : Bytes) :
    readMasters (Cells.whole raw) =
      (List.range (raw.length / 8)).map fun k => ⟨cellAt raw (2 * k), cellAt raw (2 * k + 1)⟩ := by
  rw [Cells.whole_eq, readMasters_map_range, Nat.div_div_eq_div_mul]

theorem walkBindings_of_completed (tree : Tree) (nodes : List (NodeRef × Int)) :
    walkBindings tree ⟨nodes, none⟩ = nodes.flatMap fun entry => nodeBindings tree entry.1 :=
  List.append_nil _

end Masters

namespace Tree.Stores

variable {tree : Tree} {doc : Document} {i : Nat} {ref : NodeRef}

theorem masters (h : tree.Stores doc) :
    Masters.masters tree = .ok (doc.masterList?.map fun raw => readMasters (Cells.whole raw)) := by
  rw [Masters.masters, h.findCompatible, Document.masterList?]
  cases hfound : (List.range doc.forest.size).find? (doc.isCompatible · unitCompatible) with
  | none => rfl
  | some i =>
    have hcompatible := List.find?_some hfound
    have hlt := Document.lt_size_of_isCompatible hcompatible
    rw [← h.length_nodes] at hlt
    have href := List.getElem?_eq_getElem hlt
    simp only [Option.bind_some, href, bind, Except.bind, h.value_eq href]
    rfl

theorem masterBindings (h : tree.Stores doc) (hphandles : doc.PhandlesAreCells) (master : Master) :
    (masterBindings tree master).AsksFor (doc.listedBindings master.phandle master.stream) := by
  obtain ⟨found, hfound⟩ := hphandles.findRaw master.phandle
  rw [Masters.masterBindings, h.findRaw, Document.listedBindings, hfound]
  cases found with
  | none => exact .note .error logTarget _
  | some i =>
    obtain ⟨ref, href⟩ := h.exists_of_findRaw hfound
    simp only [Except.map, Option.bind_some, href]
    exact h.deviceBindings href master.stream

theorem nodeBindings (h : tree.Stores doc) (href : tree.nodes[i]? = some ref) :
    (nodeBindings tree ref).AsksFor (doc.ownBindings i) := by
  obtain ⟨name, hname⟩ := h.nodeName href
  rw [Masters.nodeBindings, h.value_eq href, hname, Document.ownBindings]
  cases doc.value? i "iommus" with
  | none => exact .nil
  | some raw =>
    dsimp only
    refine .noted ?_
    by_cases hlength : raw.length = 12
    · have hdrop : 4 ≤ (raw.drop 4).length := by
        rw [List.length_drop]
        omega
      obtain ⟨stream, hstream⟩ := Option.isSome_iff_exists.1 (Bytes.word?_isSome_iff.2 hdrop)
      have hcell : cellAt raw 1 = stream := by
        rw [cellAt, hstream, Option.getD_some]
      rw [streamOf?, if_pos hlength, if_pos hlength, hstream, hcell]
      exact h.deviceBindings href stream
    · rw [streamOf?, if_neg hlength, if_neg hlength]
      dsimp only
      split
      · exact .nil
      · exact .note .debug logTarget _

/-- The plan of a tree asks for what the document wants. -/
theorem bindings (h : tree.Stores doc) (hphandles : doc.PhandlesAreCells) :
    (Masters.bindings tree).AsksFor doc.bindings := by
  rw [Masters.bindings, h.masters, Document.bindings]
  cases doc.masterList? with
  | some raw =>
    dsimp only [Option.map_some]
    rw [readMasters_whole, Masters.listedBindings, List.flatMap_map]
    exact .noted (.flatMap fun k _ => h.masterBindings hphandles _)
  | none =>
    dsimp only [Option.map_none]
    obtain ⟨root, href, hroot⟩ := h.root
    have hnodes : ∀ k entry, ((tree.visits doc).drop 1)[k]? = some entry →
        (Masters.nodeBindings tree entry.1).AsksFor (doc.ownBindings (1 + k)) := by
      intro k entry hentry
      rw [List.getElem?_drop] at hentry
      exact h.nodeBindings (visits_getElem?_eq_some_iff.1 hentry).1
    have hall := Plan.AsksFor.flatMap_range' 1 hnodes
    rw [List.length_drop, h.length_visits] at hall
    rw [Masters.ownBindings, hroot]
    dsimp only
    rw [h.walkFrom_root href, walkBindings_of_completed]
    exact hall

end Tree.Stores

/-- **Binding bus masters.** For every controller the requested bindings are those that the document
wants, in its order, cut off behind the first one that fails on a resource which the controller reports
as owned; the outcome is that failure, or success if there is none. -/
theorem Tree.bindMasters_cutsOff {tree : Tree} {doc : Document} (hdoc : tree.Stores doc)
    (hphandles : doc.PhandlesAreCells) (controller : Controller) :
    controller.CutsOff [] doc.bindings (Event.requests (bindMasters controller tree).events)
      (bindMasters controller tree).value :=
  carryOut_cutsOff controller [] (hdoc.bindings hphandles)

/-! ## A list of masters -/

namespace Masters

/-- A list of masters that names a device which lists its resources, a node that does not exist, and a
device with power domains, one of them without a resource; then half a pair. -/
def listedDocument : Document where
  name := []
  properties := []
  children :=
    .node "iommu@51400000" [⟨"compatible", StringList.join [unitCompatible]⟩,
      ⟨"mmu-masters", Cells.encode [2, 0x11, 9, 0x12, 3, 0x13, 2]⟩] .nil
    (.node "power-controller" [⟨"phandle", Cells.encode [1]⟩,
      ⟨"#power-domain-cells", Cells.encode [1]⟩] .nil
    (.node "clock-controller" [⟨"phandle", Cells.encode [4]⟩,
      ⟨"#power-domain-cells", Cells.encode [0]⟩] .nil
    (.node "usdhc@5b010000" [⟨"phandle", Cells.encode [2]⟩,
      ⟨"fsl,sc_rsrc_id", Cells.encode [248, 249] ++ [7]⟩,
      ⟨PowerDomain.listProperty, Cells.encode [1, 250]⟩] .nil
    (.node "gpu@53100000" [⟨"phandle", Cells.encode [3]⟩,
      ⟨PowerDomain.listProperty, Cells.encode [4, 1, 150, 1, 151, 0, 1, 152]⟩,
      ⟨"iommus", Cells.encode [1, 0x14, 0]⟩] .nil .nil))))

def listedTree : Tree :=
  listedDocument.write (StringList.join ["compatible", "mmu-masters", "phandle", "#power-domain-cells",
    "fsl,sc_rsrc_id", PowerDomain.listProperty, "iommus"]) 0

theorem stores_listedTree : listedTree.Stores listedDocument :=
  Document.stores_write (by decide) rfl 0

/-- A controller that refuses two resources and says of one of them that it is owned. -/
def refusingController : Controller where
  owns := fun _ resource => resource = ⟨150⟩
  bind := fun _ binding =>
    if binding.resource = ⟨249⟩ then .error .noAccess
    else if binding.resource = ⟨150⟩ then .error .parameter
    else .ok ()

end Masters

/-- The third of four wanted bindings fails, and its resource is owned, so the last one is not requested
any more. -/
theorem Tree.bindMasters_listedTree :
    listedTree.Stores listedDocument ∧ listedDocument.PhandlesAreCells ∧
      listedDocument.bindings =
        [⟨⟨248⟩, 0x11⟩, ⟨⟨249⟩, 0x11⟩, ⟨⟨150⟩, 0x13⟩, ⟨⟨151⟩, 0x13⟩] ∧
      Event.requests (bindMasters refusingController listedTree).events =
        [⟨⟨248⟩, 0x11⟩, ⟨⟨249⟩, 0x11⟩, ⟨⟨150⟩, 0x13⟩] ∧
      (bindMasters refusingController listedTree).value = .error (.binding .parameter) ∧
      refusingController.CutsOff []
        [⟨⟨248⟩, 0x11⟩, ⟨⟨249⟩, 0x11⟩, ⟨⟨150⟩, 0x13⟩, ⟨⟨151⟩, 0x13⟩]
        [⟨⟨248⟩, 0x11⟩, ⟨⟨249⟩, 0x11⟩, ⟨⟨150⟩, 0x13⟩] (.error (.binding .parameter)) := by
  have hphandles : listedDocument.PhandlesAreCells := by decide
  have hwanted : listedDocument.bindings =
      [⟨⟨248⟩, 0x11⟩, ⟨⟨249⟩, 0x11⟩, ⟨⟨150⟩, 0x13⟩, ⟨⟨151⟩, 0x13⟩] := by
    decide +kernel
  have hrequested : Event.requests (bindMasters refusingController listedTree).events =
      [⟨⟨248⟩, 0x11⟩, ⟨⟨249⟩, 0x11⟩, ⟨⟨150⟩, 0x13⟩] := by
    decide +kernel
  have houtcome : (bindMasters refusingController listedTree).value =
      .error (.binding .parameter) := by
    decide +kernel
  have hcutsOff := bindMasters_cutsOff stores_listedTree hphandles refusingController
  rw [hwanted, hrequested, houtcome] at hcutsOff
  exact ⟨stores_listedTree, hphandles, hwanted, hrequested, houtcome, hcutsOff⟩

end BootTree
