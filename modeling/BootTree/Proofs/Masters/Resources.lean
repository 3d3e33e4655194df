import BootTree.Masters.Plan
import BootTree.Proofs.Edma.Masking
import BootTree.Proofs.PowerDomain.Demand

/-!
# BootTree.Proofs.Masters.Resources

The resources of a bus master, said of the document, and the plan that binds them: it asks for one
binding after the other and never fails.

* `cellAt`: the cells of a value by their index; `Cells.whole_eq`.
* `Document.leading`: the references at the front of a list, up to an empty or malformed entry.
* `Document.resources`: the resources of a device; `Tree.Stores.deviceBindings`.
-/

namespace BootTree

open Blob

/-! ## Cells by their index -/

/-- The cell at an index of a value; zero if the value ends in front of it. -/
def cellAt (raw : Bytes) (k : Nat) : UInt32 := (Bytes.word? (raw.drop (4 * k))).getD 0

theorem Cells.whole_eq (raw : Bytes) :
    Cells.whole raw = (List.range (raw.length / 4)).map (cellAt raw) := by
  fun_induction Cells.whole raw with
  | case1 a b c d rest ih =>
    have hlength : (a :: b :: c :: d :: rest).length / 4 = rest.length / 4 + 1 := by
      simp only [List.length_cons]
      omega
    have hrest (k : Nat) : cellAt (a :: b :: c :: d :: rest) (k + 1) = cellAt rest k := by
      rw [cellAt, Nat.mul_succ, Nat.add_comm, ← List.drop_drop]
      rfl
    rw [hlength, List.range_succ_eq_map, List.map_cons, List.map_map, ih]
    refine congrArg₂ List.cons rfl ?_
    exact List.map_congr_left fun k _ => (hrest k).symm
  | case2 raw hshort =>
    have hlength : raw.length / 4 = 0 := by
      match raw with
      | [] | [_] | [_, _] | [_, _, _] => simp
      | a :: b :: c :: d :: rest => exact absurd rfl (hshort a b c d rest)
    rw [hlength]
    rfl

/-! ## The front of a list of references -/

/-- The node that a reference leads to, and how many cells follow the reference. -/
def Document.reference? (doc : Document) (rule : ArgumentCount) (raw : UInt32) :
    Option (Nat × Nat) :=
  match doc.findRaw raw with
  | .ok (some i) =>
    match doc.argumentCount i rule with
    | .ok count => some (i, count)
    | .error _ => none
  | _ => none

/-- The arguments of the references at the front of a list, up to an entry that is empty or
malformed. -/
def Document.leading (doc : Document) (rule : ArgumentCount) : List UInt32 → List (List UInt32)
  | [] => []
  | raw :: rest =>
    match doc.reference? rule raw with
    | none => []
    | some (_, count) =>
      if rest.length < count then [] else rest.take count :: doc.leading rule (rest.drop count)
termination_by cells => cells.length
decreasing_by simp only [List.length_cons, List.length_drop]; omega

/-- The resources of a bus master: those that it lists, or else the first arguments of the references
to its power domains. -/
def Document.resources (doc : Document) (i : Nat) : List Resource :=
  match doc.value? i "fsl,sc_rsrc_id" with
  | some raw => (List.range (raw.length / 4)).map fun k => ⟨cellAt raw k⟩
  | none =>
    match doc.value? i PowerDomain.listProperty with
    | none => []
    | some raw =>
      if raw.length % 4 = 0 then
        (doc.leading PowerDomain.argumentRule ((List.range (raw.length / 4)).map (cellAt raw))).filterMap
          fun args => args.head?.map Resource.mk
      else []

namespace Document

variable {doc : Document} {rule : ArgumentCount} {raw : UInt32}

theorem findRaw_eq_some_iff {i : Nat} :
    doc.findRaw raw = .ok (some i) ↔
      ∃ phandle, Phandle.ofRaw? raw = some phandle ∧ doc.findPhandle phandle = .ok (some i) := by
  rw [findRaw]
  cases Phandle.ofRaw? raw with
  | none => simp
  | some phandle => simp

theorem reference?_eq_some_iff {i count : Nat} :
    doc.reference? rule raw = some (i, count) ↔
      doc.findRaw raw = .ok (some i) ∧ doc.argumentCount i rule = .ok count := by
  rw [reference?]
  cases hfound : doc.findRaw raw with
  | error e => simp
  | ok found =>
    cases found with
    | none => simp
    | some j =>
      dsimp only
      cases hcount : doc.argumentCount j rule with
      | error e =>
        simp only [reduceCtorEq, Except.ok.injEq, Option.some.injEq, false_iff, not_and]
        rintro rfl
        simp [hcount]
      | ok found =>
        simp only [Option.some.injEq, Prod.mk.injEq, Except.ok.injEq]
        constructor
        · rintro ⟨rfl, rfl⟩
          exact ⟨rfl, hcount⟩
        · rintro ⟨rfl, h⟩
          rw [hcount, Except.ok.injEq] at h
          exact ⟨rfl, h⟩

end Document

/-! ## What a tree reads -/

namespace Tree.Stores

variable {tree : Tree} {doc : Document} {i : Nat} {ref : NodeRef} {rule : ArgumentCount}
  {raw : UInt32}

theorem reference?_of_ok (h : tree.Stores doc) {count : Nat}
    (hreference : tree.reference rule raw = .ok (ref, count)) :
    ∃ i, doc.reference? rule raw = some (i, count) := by
  obtain ⟨phandle, i, hraw, hfound, -, hcount⟩ := h.reference_eq_ok_iff.1 hreference
  exact ⟨i, Document.reference?_eq_some_iff.2
    ⟨Document.findRaw_eq_some_iff.2 ⟨phandle, hraw, hfound⟩, hcount⟩⟩

theorem reference?_of_error (h : tree.Stores doc) {e : TreeError}
    (hreference : tree.reference rule raw = .error e) : doc.reference? rule raw = none := by
  cases hsome : doc.reference? rule raw with
  | none => rfl
  | some found =>
    obtain ⟨hraw, hcount⟩ := Document.reference?_eq_some_iff.1 hsome
    obtain ⟨phandle, hphandle, hfound⟩ := Document.findRaw_eq_some_iff.1 hraw
    obtain ⟨node, hnode⟩ := h.exists_of_findPhandle hfound
    have hok := h.reference_eq_ok_iff.2 ⟨phandle, found.1, hphandle, hfound, hnode, hcount⟩
    rw [hok] at hreference
    cases hreference

end Tree.Stores

/-- The arguments of the slots at the front of a list, up to one that is no reference. -/
def leadingArgs : List Slot → List (List UInt32)
  | [] => []
  | .empty :: _ => []
  | .reference _ args :: rest => args :: leadingArgs rest

theorem Tree.Stores.leadingArgs_slotsFrom {tree : Tree} {doc : Document} (h : tree.Stores doc)
    (rule : ArgumentCount) (total : Nat) (cells : List UInt32) :
    leadingArgs (tree.slotsFrom rule total cells).slots = doc.leading rule cells := by
  fun_induction Tree.slotsFrom tree rule total cells with
  | case1 =>
    rw [Document.leading]
    rfl
  | case2 rest ih =>
    have hnone : doc.reference? rule 0 = none := rfl
    rw [Document.leading, hnone]
    rfl
  | case3 raw rest hzero e hreference =>
    rw [Document.leading, h.reference?_of_error hreference]
    rfl
  | case4 raw rest hzero ref count hreference hshort =>
    obtain ⟨i, hsome⟩ := h.reference?_of_ok hreference
    rw [Document.leading, hsome]
    dsimp only
    rw [if_pos hshort]
    rfl
  | case5 raw rest hzero ref count hreference hlong ih =>
    obtain ⟨i, hsome⟩ := h.reference?_of_ok hreference
    rw [Document.leading, hsome]
    dsimp only
    rw [if_neg hlong, ← ih]
    rfl

/-! ## What a plan asks for -/

namespace Plan

variable {α β : Type}

theorem failure?_append {p q : Plan α} (hp : p.failure? = none) : (p ++ q).failure? = q.failure? := by
  induction p with
  | nil => rfl
  | cons step rest ih =>
    cases step with
    | note record => exact ih hp
    | ask request => exact ih hp
    | fail e => cases hp

theorem requests_append {p q : Plan α} (hp : p.failure? = none) :
    (p ++ q).requests = p.requests ++ q.requests := by
  induction p with
  | nil => rfl
  | cons step rest ih =>
    cases step with
    | note record => exact ih hp
    | ask request => exact congrArg (request :: ·) (ih hp)
    | fail e => cases hp

/-- A plan that asks for these things and does not fail. -/
structure AsksFor (p : Plan α) (requests : List α) : Prop where
  requests : p.requests = requests
  failure : p.failure? = none

namespace AsksFor

theorem nil : AsksFor ([] : Plan α) [] := ⟨rfl, rfl⟩

theorem append {p q : Plan α} {rs ss : List α} (hp : AsksFor p rs) (hq : AsksFor q ss) :
    AsksFor (p ++ q) (rs ++ ss) := by
  refine ⟨?_, ?_⟩
  · rw [requests_append hp.failure, hp.requests, hq.requests]
  · rw [failure?_append hp.failure, hq.failure]

theorem note (level : Log.Level) (target message : String) :
    AsksFor (Plan.note level target message : Plan α) [] := ⟨rfl, rfl⟩

theorem noted {p : Plan α} {rs : List α} {level : Log.Level} {target message : String}
    (h : AsksFor p rs) : AsksFor (Plan.note level target message ++ p) rs :=
  ⟨h.requests, h.failure⟩

theorem asks (l : List β) (f : β → α) : AsksFor (l.map fun b => .ask (f b)) (l.map f) := by
  induction l with
  | nil => exact .nil
  | cons b bs ih => exact ⟨congrArg (f b :: ·) ih.requests, ih.failure⟩

theorem flatMap {l : List β} {f : β → Plan α} {g : β → List α} (h : ∀ b ∈ l, AsksFor (f b) (g b)) :
    AsksFor (l.flatMap f) (l.flatMap g) := by
  induction l with
  | nil => exact .nil
  | cons b bs ih =>
    rw [List.flatMap_cons, List.flatMap_cons]
    exact (h b List.mem_cons_self).append (ih fun c hc => h c (List.mem_cons_of_mem _ hc))

/-- One plan for each element of a list, where its index says what the plan asks for. -/
theorem flatMap_range' {l : List β} {f : β → Plan α} {g : Nat → List α} (start : Nat)
    (h : ∀ k b, l[k]? = some b → AsksFor (f b) (g (start + k))) :
    AsksFor (l.flatMap f) ((List.range' start l.length).flatMap g) := by
  induction l generalizing start with
  | nil => exact .nil
  | cons b bs ih =>
    have hrest : ∀ k c, bs[k]? = some c → AsksFor (f c) (g (start + 1 + k)) := by
      intro k c hc
      have hshift : start + (k + 1) = start + 1 + k := by omega
      have hnext := h (k + 1) c hc
      rwa [hshift] at hnext
    rw [List.flatMap_cons, List.length_cons, List.range'_succ, List.flatMap_cons]
    exact (h 0 b rfl).append (ih (start + 1) hrest)

end AsksFor

end Plan

namespace Masters

/-- A plan that asks for resources is turned into one that binds them, in the same order. -/
theorem bindEach_asksFor {plan : Plan Resource} {resources : List Resource}
    (h : plan.AsksFor resources) (name : String) (stream : StreamId) :
    (bindEach name stream plan).AsksFor (resources.map (⟨·, stream⟩)) := by
  obtain ⟨rfl, hfailure⟩ := h
  induction plan with
  | nil => exact .nil
  | cons step rest ih =>
    cases step with
    | note record => exact ⟨(ih hfailure).requests, (ih hfailure).failure⟩
    | ask resource =>
      exact ⟨congrArg ((⟨resource, stream⟩ : Binding) :: ·) (ih hfailure).requests,
        (ih hfailure).failure⟩
    | fail e => cases hfailure

theorem bindListed_asksFor (name : String) (stream : StreamId) (raw : Bytes) :
    (bindListed name stream raw).AsksFor
      ((Cells.whole raw).map fun id => ⟨⟨id⟩, stream⟩) := by
  have hasks := Plan.AsksFor.asks (Cells.whole raw) fun id => (⟨⟨id⟩, stream⟩ : Binding)
  rw [bindListed]
  split <;> exact ⟨hasks.requests, hasks.failure⟩

/-- Entries are asked for up to the first one that is empty or malformed. A malformed entry does not
end the plan, but what stands behind it cannot be read either. -/
theorem entryDemand_asksFor (target name : String) (list : SlotList) {start count : Nat}
    (hcount : list.slots.length ≤ start + count) :
    (PowerDomain.entryDemand target name 0 (.ok list) (List.range' start count)).AsksFor
      ((leadingArgs (list.slots.drop start)).filterMap fun args => args.head?.map Resource.mk) := by
  refine ⟨?_, PowerDomain.failure?_entryDemand _⟩
  induction count generalizing start with
  | zero =>
    rw [List.drop_of_length_le (by omega)]
    rfl
  | succ count ih =>
    have hrest := @ih (start + 1) (by omega)
    have hbind : (Except.ok list : Except TreeError SlotList).bind (·.entry start) =
      list.entry start := rfl
    rw [List.range'_succ, PowerDomain.entryDemand, Edma.isMasked_zero, if_neg (by decide), hbind,
      SlotList.entry]
    cases hslot : list.slots[start]? with
    | none =>
      have hle := List.getElem?_eq_none_iff.1 hslot
      rw [List.drop_of_length_le (Nat.le_succ_of_le hle)] at hrest
      rw [List.drop_of_length_le hle]
      cases list.failure with
      | none => rfl
      | some e =>
        cases e with
        | notFound => rfl
        | _ => exact hrest
    | some slot =>
      obtain ⟨hlt, rfl⟩ := List.getElem?_eq_some_iff.1 hslot
      rw [List.drop_eq_getElem_cons hlt]
      cases list.slots[start] with
      | empty => rfl
      | reference node args =>
        cases args with
        | nil => exact hrest
        | cons arg args => exact congrArg ((⟨arg⟩ : Resource) :: ·) hrest

end Masters

/-! ## The plan for a device -/

/-- Every slot takes a cell at least. -/
theorem Tree.Stores.length_slotsFrom_le {tree : Tree} {doc : Document} (h : tree.Stores doc)
    (rule : ArgumentCount) (total : Nat) (cells : List UInt32) :
    (tree.slotsFrom rule total cells).slots.length ≤ cells.length := by
  obtain ⟨entries, rest, hentries, hrest⟩ := h.exists_entriesOf rule total cells
  rw [h.slotsFrom_of_entriesOf hentries, hrest, List.append_nil, List.length_map]
  exact hentries.length_le

theorem Tree.Stores.nodeName {tree : Tree} {doc : Document} {i : Nat} {ref : NodeRef}
    (h : tree.Stores doc) (href : tree.nodes[i]? = some ref) : ∃ name, tree.nodeName ref = .ok name := by
  obtain ⟨node, pre, body, inner, post, hat⟩ := h.exists_storedAt href
  exact ⟨node.name, hat.nodeName⟩

open Masters in
/-- The plan for a device asks to bind the resources that the document says, to one stream id. -/
theorem Tree.Stores.deviceBindings {tree : Tree} {doc : Document} {i : Nat} {ref : NodeRef}
    (h : tree.Stores doc) (href : tree.nodes[i]? = some ref) (stream : StreamId) :
    (deviceBindings tree ref stream).AsksFor ((doc.resources i).map (⟨·, stream⟩)) := by
  obtain ⟨name, hname⟩ := h.nodeName href
  rw [Masters.deviceBindings, hname, h.value_eq href, h.cells href, Document.resources, Document.cells,
    readAs, Document.value?, Document.value?]
  dsimp only
  cases valueOf? (doc.propertiesAt i) "fsl,sc_rsrc_id" with
  | some raw =>
    have hasks := bindListed_asksFor (textOf name) stream raw
    rw [Cells.whole_eq, List.map_map] at hasks
    dsimp only
    rw [List.map_map]
    exact hasks
  | none =>
    dsimp only
    cases hlist : valueOf? (doc.propertiesAt i) PowerDomain.listProperty with
    | none => exact .nil
    | some raw =>
      dsimp only
      by_cases hwhole : raw.length % 4 = 0
      · have hdecode : Cells.decode raw = .ok (Cells.whole raw) := if_pos hwhole
        have hread : tree.readSlots ref PowerDomain.listProperty PowerDomain.argumentRule =
            .ok (tree.slotsFrom PowerDomain.argumentRule (Cells.whole raw).length (Cells.whole raw)) := by
          rw [readSlots, h.cells href, Document.cells, readAs, hlist]
          dsimp only
          rw [hdecode]
        have hlength : (tree.slotsFrom PowerDomain.argumentRule (Cells.whole raw).length
            (Cells.whole raw)).slots.length ≤ 0 + (Cells.whole raw).length := by
          rw [Nat.zero_add]
          exact h.length_slotsFrom_le _ _ _
        have hasks := entryDemand_asksFor logTarget (textOf name) _ hlength
        rw [List.drop_zero, h.leadingArgs_slotsFrom, ← List.range_eq_range'] at hasks
        rw [hdecode, hread, if_pos hwhole, ← Cells.whole_eq]
        exact bindEach_asksFor hasks (textOf name) stream
      · have hdecode : Cells.decode raw = .error .partialCell := if_neg hwhole
        rw [hdecode, if_neg hwhole]
        exact .note .warn logTarget _

end BootTree
