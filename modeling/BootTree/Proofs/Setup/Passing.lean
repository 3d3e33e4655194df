import BootTree.Proofs.Document.Gaining
import BootTree.Proofs.Image.Recorded
import BootTree.Proofs.Setup.Preserved

/-!
# BootTree.Proofs.Setup.Passing

What the operating system is told through nodes of its own: a random seed, and where the secure
system is. In a tree without a limit passing one of them on succeeds; the nodes and the values that
the tree lacks are added, and memory that is not seen among the reservations is.

* `Setup.Notice`: what is told, with the path and the values by which it is found.
* `Setup.Roomy`: trees in which all of it succeeds.
* `Tree.reservationsWith`: the reservations once one more was wanted.
* `Setup.Roomy.exists_passed`: one notice.
-/

namespace BootTree

open Blob

namespace Setup

/-- What the operating system is told. -/
inductive Notice where
  | seed (seed : Seed)
  | secureOs (os : SecureOs)
  deriving DecidableEq

namespace Notice

/-- The path of the node by which it is told. -/
def path : Notice → Bytes
  | seed _ => "/chosen"
  | secureOs _ => "/firmware/optee"

/-- The values that the node is to have. -/
def values : Notice → List Property
  | seed bytes => [⟨"kaslr-seed", bytes.toList⟩]
  | secureOs _ =>
    [⟨"compatible", Bytes.ofText "linaro,optee-tz" ++ [0]⟩, ⟨"method", Bytes.ofText "smc" ++ [0]⟩]

/-- The memory that is to be reserved with it. -/
def reservation? : Notice → Option Reservation
  | seed _ => none
  | secureOs os => if os.reserveMemory then some os.reservation else none

/-- Telling it succeeds and leaves the second tree. -/
def Passed : Notice → Tree → Tree → Prop
  | seed bytes, tree, tree' => (Seed.storeFresh (.ok bytes)).result tree = (.ok (), tree')
  | secureOs os, tree, tree' => os.describe.result tree = (.ok (), tree')

/-- It can be read from the tree. -/
def IsFound : Notice → Tree → Prop
  | seed bytes, tree => ∃ ref, tree.resolve "/chosen" = .ok (some ref) ∧
      tree.value ref "kaslr-seed" = .ok (some bytes.toList)
  | secureOs _, tree => ∃ ref, tree.resolve "/firmware/optee" = .ok (some ref) ∧
      tree.text ref "compatible" = .ok (some "linaro,optee-tz") ∧
      tree.text ref "method" = .ok (some "smc")

/-- The document with the node and its values, which are there or are added. -/
def GainedBy (notice : Notice) (doc doc' : Document) : Prop :=
  doc.Gains (Tree.components notice.path) notice.values doc'

/-- The document has the node and its values. -/
def IsIn (notice : Notice) (doc : Document) : Prop :=
  doc.Has (Tree.components notice.path) notice.values

theorem head?_path (notice : Notice) : notice.path.head? = some slash := by
  cases notice <;> rfl

theorem atSign_notMem (notice : Notice) :
    ∀ name ∈ Tree.components notice.path, atSign ∉ name := by
  have hchosen : ∀ name ∈ Tree.components "/chosen", atSign ∉ name := by decide +kernel
  have hoptee : ∀ name ∈ Tree.components "/firmware/optee", atSign ∉ name := by decide +kernel
  cases notice with
  | seed _ => exact hchosen
  | secureOs _ => exact hoptee

theorem nodup_values (notice : Notice) : (notice.values.map Property.name).Nodup := by
  cases notice <;> simp [values]

theorem GainedBy.isIn {notice : Notice} {doc doc' : Document} (h : notice.GainedBy doc doc') :
    notice.IsIn doc' := h.has notice.atSign_notMem notice.nodup_values

theorem IsIn.afterwards {notice other : Notice} {doc doc' : Document} (h : notice.IsIn doc)
    (hgains : other.GainedBy doc doc')
    (hnames : ∀ p ∈ notice.values, ∀ q ∈ other.values, p.name ≠ q.name) : notice.IsIn doc' :=
  Document.Has.afterwards h hgains other.atSign_notMem hnames

/-- What is in the document can be read from every tree that stores it. -/
theorem IsIn.isFound {notice : Notice} {tree : Tree} {doc : Document} (h : notice.IsIn doc)
    (hdoc : tree.Stores doc) : notice.IsFound tree := by
  obtain ⟨target, hleads, hvalues⟩ := h
  have htarget : target < tree.nodes.length := by
    rw [hdoc.length_nodes]
    exact Document.lt_size_of_leadsAlong hleads (Nat.succ_pos _)
  have href := List.getElem?_eq_getElem htarget
  have hresolve := (hdoc.resolve_eq_some_iff notice.head?_path _).2 ⟨target, hleads, href⟩
  have hread : ∀ p ∈ notice.values, tree.value tree.nodes[target] p.name = .ok (some p.value) := by
    intro p hp
    rw [hdoc.value_eq href, hvalues p hp]
  cases notice with
  | seed _ => exact ⟨_, hresolve, hread _ List.mem_cons_self⟩
  | secureOs os =>
    refine ⟨_, hresolve, ?_, ?_⟩
    · rw [Tree.text, Tree.valueAs, hread ⟨"compatible", _⟩ List.mem_cons_self]
      rfl
    · rw [Tree.text, Tree.valueAs,
        hread ⟨"method", _⟩ (List.mem_cons_of_mem _ List.mem_cons_self)]
      rfl

end Notice

/-! ## Trees with enough room -/

/-- A tree without a limit that stores a document and has room for the names that are written. -/
structure Roomy (tree : Tree) (doc : Document) : Prop where
  stores : tree.Stores doc
  unlimited : tree.maxSize = none
  room : tree.sizeWith writtenNames < 2 ^ 32

namespace Roomy

variable {tree tree' : Tree} {doc : Document} {i : Nat} {ref : NodeRef}

theorem start (h : tree.Stores doc) (hunlimited : tree.maxSize = none)
    (hsize : tree.totalSize < 2 ^ 32) : Roomy tree doc :=
  ⟨h, hunlimited, Nat.lt_of_le_of_lt (sizeWith_le_totalSize h) hsize⟩

theorem withFree (h : Roomy tree doc) (free : Nat) : Roomy (tree.withFree free) doc :=
  ⟨h.stores, h.unlimited, h.room⟩

/-- A child that a name means is found or added. -/
theorem childOrAdd (h : Roomy tree doc) (name : Bytes) (href : tree.nodes[i]? = some ref)
    (hname : Tree.isNodeName name = true) (htext : Bytes.isText name = true)
    (hshort : (Tree.emptyNode name).length ≤ growIncrement) :
    ∃ child tree' doc' j, (childOrAdd ref name).result tree = (.ok child, tree') ∧
      Roomy tree' doc' ∧ doc.HasOrGains i name doc' j ∧ tree'.nodes[j]? = some child ∧
      tree'.reservations = tree.reservations := by
  obtain ⟨node, pre, body, inner, post, hat⟩ := h.stores.exists_storedAt href
  have hsearch := hat.child? h.stores name
  have hfirst (j : Nat) := @Document.firstChild_iff doc i j node name hat.cut.node?
  unfold BootTree.childOrAdd
  cases hfound : node.children.child? name with
  | some found =>
    have hchild := (hfirst (i + 1 + found.1)).2 ⟨found, hfound, rfl⟩
    have hlt : i + 1 + found.1 < tree.nodes.length := by
      rw [h.stores.length_nodes]
      exact hchild.parent.inside.lt_size
    have hplace := List.getElem?_eq_getElem hlt
    rw [hfound, Option.bind_some, hplace] at hsearch
    have hask : (Attempt.ask (·.child? ref name)).result tree =
        (.ok (some tree.nodes[i + 1 + found.1]), tree) := by rw [Attempt.result_ask, hsearch]
    refine ⟨_, tree, doc, _, ?_, h, .has hchild, hplace, rfl⟩
    rw [Attempt.result_bind_of_ok hask]
    rfl
  | none =>
    rw [hfound] at hsearch
    have hask : (Attempt.ask (·.child? ref name)).result tree = (.ok none, tree) := by
      rw [Attempt.result_ask, hsearch]
      rfl
    have hnone : ∀ j, doc.IsParent i j → ¬ Means (doc.nameAt j) name := by
      intro j hparent hmeans
      obtain ⟨first, hmeant⟩ := Document.exists_firstChild hparent hmeans
      obtain ⟨found, hthere, -⟩ := (hfirst first).1 hmeant
      rw [hfound] at hthere
      cases hthere
    have hnamesake : tree.namesake? ref name = .ok none := by
      obtain ⟨found, hresult, hexists⟩ := hat.namesake? h.stores name
      cases found with
      | none => exact hresult
      | some other =>
        obtain ⟨j, child, hparent, hchild, hsame⟩ := hexists.1 rfl
        exact absurd (.inl (by rw [Document.nameAt_eq hchild, hsame])) (hnone j hparent)
    have hcosts := Tree.costs_addChild hname hnamesake hat.propertiesEnd
    obtain ⟨free, hresult⟩ := hcosts.result_withGrowth h.unlimited hshort
    have hadded := hat.added_spliced (Tree.not_mem_of_isNodeName hname) htext
    have hconfined : Confined writtenNames tree _ :=
      .ofStrings hadded.strings (by rw [Tree.reserved, Tree.reserved, hadded.reservations])
    have hroomy : Roomy _ (doc.withChild i name) :=
      ⟨hadded.stores, h.unlimited, Nat.lt_of_le_of_lt hconfined.size h.room⟩
    refine ⟨_, _, _, _, ?_, hroomy.withFree free, .gains hnone, hadded.atChild, rfl⟩
    rw [Attempt.result_bind_of_ok hask]
    exact hresult

/-- A short value is set. -/
theorem setGrowing (h : Roomy tree doc) (name value : Bytes) (href : tree.nodes[i]? = some ref)
    (hname : name ∈ writtenNames)
    (hshort : Tree.propertyCost value + (name.length + 1) ≤ growIncrement) :
    ∃ tree', (setGrowing ref name value).result tree = (.ok (), tree') ∧
      Roomy tree' (doc.alter (withValue name value) id i) ∧ tree'.nodes[i]? = some ref ∧
      tree'.reservations = tree.reservations := by
  obtain ⟨node, pre, body, inner, post, hat⟩ := h.stores.exists_storedAt href
  have hvalue := Tree.length_lt_of_propertyCost_le hshort
  have hoffset : tree.nameOffset name < 2 ^ 32 := by
    have hle := tree.nameOffset_le name
    have hlength : tree.strings.length ≤ tree.sizeWith writtenNames := Nat.le_add_right _ _
    have hroom := h.room
    omega
  have hcost := Nat.le_trans (tree.setCost_le ref name value) hshort
  rcases hat.result_setGrowing (not_mem_of_mem_writtenNames hname) hvalue hoffset with
    ⟨tree', hresult, hupdated⟩ | ⟨-, hlimited, -⟩
  · have hconfined : Confined writtenNames tree tree' :=
      .ofName (.inl hname) hupdated.strings hupdated.reservations
    exact ⟨tree', hresult, ⟨hupdated.stores, hupdated.maxSize.trans h.unlimited,
      Nat.lt_of_le_of_lt hconfined.size h.room⟩, hupdated.shifted.getElem? href,
      hupdated.reservations⟩
  · exact absurd h.unlimited (hlimited hcost)

end Roomy

end Setup

/-- The reservations once this one was wanted: it is added unless it is seen. -/
def Tree.reservationsWith (tree : Tree) : Option Reservation → List Reservation
  | none => tree.reservations
  | some entry => if entry ∈ tree.reserved then tree.reservations else tree.reservations ++ [entry]

theorem Tree.reservationsWith_congr {tree after : Tree}
    (h : after.reservations = tree.reservations) (wanted : Option Reservation) :
    after.reservationsWith wanted = tree.reservationsWith wanted := by
  cases wanted with
  | none => exact h
  | some entry => rw [reservationsWith, reservationsWith, reserved, reserved, h]

namespace Setup

/-! ## One notice -/

namespace Roomy

variable {tree tree' : Tree} {doc : Document}

theorem reserveOnce (h : Roomy tree doc) (os : SecureOs) :
    ∃ tree', os.reserveOnce.result tree = (.ok (), tree') ∧ Roomy tree' doc ∧
      tree'.reservations = tree.reservationsWith (some os.reservation) := by
  rw [SecureOs.reserveOnce, Attempt.result_bind_of_ok (Attempt.result_get tree),
    Tree.reservationsWith]
  by_cases hseen : os.reservation ∈ tree.reserved
  · rw [if_pos hseen, if_pos (by simpa using hseen)]
    exact ⟨tree, rfl, h, rfl⟩
  · have hcosts : Edit.Costs (Tree.reserve os.reservation) tree 0 entrySize () _ :=
      Tree.costs_reserve os.reservation
    obtain ⟨free, hresult⟩ := hcosts.result_withGrowth h.unlimited (by decide)
    rw [if_neg hseen, if_neg (by simpa using hseen)]
    exact ⟨_, hresult, ⟨h.stores, h.unlimited, h.room⟩, rfl⟩

/-- The memory of the secure system is reserved if it is to be. -/
theorem exists_reserved (h : Roomy tree doc) (os : SecureOs) :
    ∃ tree', (os.reserveMemory = true → os.reserveOnce.result tree = (.ok (), tree')) ∧
      (¬ os.reserveMemory = true → tree' = tree) ∧ Roomy tree' doc ∧
      tree'.reservations = tree.reservationsWith (Notice.secureOs os).reservation? := by
  rw [Notice.reservation?]
  by_cases hwanted : os.reserveMemory = true
  · obtain ⟨tree', hreserve, hroomy, hreservations⟩ := h.reserveOnce os
    rw [if_pos hwanted]
    exact ⟨tree', fun _ => hreserve, fun hnot => absurd hwanted hnot, hroomy, hreservations⟩
  · rw [if_neg hwanted]
    exact ⟨tree, fun hyes => absurd hyes hwanted, fun _ => rfl, h, rfl⟩

theorem exists_passed_seed (h : Roomy tree doc) (seed : Seed) :
    ∃ tree' doc', (Notice.seed seed).Passed tree tree' ∧ Roomy tree' doc' ∧
      (Notice.seed seed).GainedBy doc doc' ∧ tree'.reservations = tree.reservations := by
  have hlength : seed.toList.length = 8 := Vector.length_toList
  obtain ⟨root, hfirst, hroot⟩ := h.stores.root
  have hask : (Attempt.ask Tree.root).result tree = (.ok root, tree) := by
    rw [Attempt.result_ask, hroot]
  obtain ⟨chosen, tree₁, doc₁, i, hchosen, h₁, hgains, hplace, hreservations⟩ :=
    h.childOrAdd "chosen" hfirst (by decide) (Bytes.isText_ofText _) (by decide)
  obtain ⟨tree₂, hset, h₂, -, hreservations'⟩ :=
    h₁.setGrowing "kaslr-seed" seed.toList hplace (by simp [writtenNames])
      (by rw [Tree.propertyCost, hlength]; decide)
  have hstore : (Seed.store seed).result tree = (.ok (), tree₂) := by
    rw [Seed.store, Attempt.result_bind_of_ok hask, Attempt.result_bind_of_ok hchosen,
      Attempt.result_bind_of_ok hset]
    rfl
  exact ⟨tree₂, _, Attempt.result_mapError_of_ok hstore _, h₂, ⟨doc₁, i, .step hgains .here, rfl⟩,
    hreservations'.trans hreservations⟩

/-- The memory is reserved last, if it is to be. -/
theorem exists_passed_secureOs (h : Roomy tree doc) (os : SecureOs) :
    ∃ tree' doc', (Notice.secureOs os).Passed tree tree' ∧ Roomy tree' doc' ∧
      (Notice.secureOs os).GainedBy doc doc' ∧
      tree'.reservations = tree.reservationsWith (Notice.secureOs os).reservation? := by
  have hgrow : (Attempt.edit (Tree.grow growIncrement)).result tree =
      (.ok (), tree.withFree (tree.free + growIncrement)) :=
    Fixup.result_edit_of_ok (Tree.grow_of_unlimited h.unlimited _)
  have hgrown := h.withFree (tree.free + growIncrement)
  obtain ⟨root, hfirst, hroot⟩ := hgrown.stores.root
  have hask : (Attempt.ask Tree.root).result (tree.withFree (tree.free + growIncrement)) =
      (.ok root, tree.withFree (tree.free + growIncrement)) := by rw [Attempt.result_ask, hroot]
  obtain ⟨firmware, tree₁, doc₁, i, hfirmware, h₁, hgains₁, hplace₁, hreservations₁⟩ :=
    hgrown.childOrAdd "firmware" hfirst (by decide) (Bytes.isText_ofText _) (by decide)
  obtain ⟨node, tree₂, doc₂, j, hnode, h₂, hgains₂, hplace₂, hreservations₂⟩ :=
    h₁.childOrAdd "optee" hplace₁ (by decide) (Bytes.isText_ofText _) (by decide)
  obtain ⟨tree₃, hcompatible, h₃, hplace₃, hreservations₃⟩ :=
    h₂.setGrowing "compatible" (Bytes.ofText "linaro,optee-tz" ++ [0]) hplace₂
      (by simp [writtenNames]) (by decide)
  obtain ⟨tree₄, hmethod, h₄, -, hreservations₄⟩ :=
    h₃.setGrowing "method" (Bytes.ofText "smc" ++ [0]) hplace₃ (by simp [writtenNames]) (by decide)
  have hsame : tree₄.reservations = tree.reservations := by
    rw [hreservations₄, hreservations₃, hreservations₂, hreservations₁, Tree.withFree]
  rw [Document.alter_alter] at h₄
  have hgains : (Notice.secureOs os).GainedBy doc _ :=
    ⟨doc₂, j, .step hgains₁ (.step hgains₂ .here), rfl⟩
  obtain ⟨tree₅, htaken, hskipped, h₅, hreservations₅⟩ := h₄.exists_reserved os
  refine ⟨tree₅, _, ?_, h₅, hgains, ?_⟩
  · have hcompatible' : (withGrowth (Tree.setText node "compatible" "linaro,optee-tz")).result
        tree₂ = (.ok (), tree₃) := hcompatible
    have hmethod' : (withGrowth (Tree.setText node "method" "smc")).result tree₃ =
        (.ok (), tree₄) := hmethod
    rw [Notice.Passed, SecureOs.describe, Attempt.result_bind_of_ok hgrow,
      Attempt.result_bind_of_ok hask, Attempt.result_bind_of_ok hfirmware,
      Attempt.result_bind_of_ok hnode, Attempt.result_bind_of_ok hcompatible',
      Attempt.result_bind_of_ok hmethod']
    exact Attempt.result_optional htaken hskipped fun _ => _
  · rw [hreservations₅, Tree.reservationsWith_congr hsame]

/-- Every notice can be passed on. -/
theorem exists_passed (h : Roomy tree doc) (notice : Notice) :
    ∃ tree' doc', notice.Passed tree tree' ∧ Roomy tree' doc' ∧ notice.GainedBy doc doc' ∧
      tree'.reservations = tree.reservationsWith notice.reservation? := by
  cases notice with
  | seed bytes => exact h.exists_passed_seed bytes
  | secureOs os => exact h.exists_passed_secureOs os

end Roomy

end Setup

end BootTree
