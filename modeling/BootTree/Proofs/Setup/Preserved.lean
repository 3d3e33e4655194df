import BootTree.Proofs.PowerDomain.Restrict
import BootTree.Proofs.Setup.Traceable

/-!
# BootTree.Proofs.Setup.Preserved

What the setup leaves of a tree, whoever owns what, whatever fails on the way, and wherever the setup
ends: each of its steps leads from a tree that can be traced to the first one to such a tree.

* `Setup.leads_restrict`, `Setup.leads_reconcile`, `Setup.leads_passSeed`, `Setup.leads_describe`: the
  steps.
* `Setup.leads_setup`: their run, wherever it ends.
* `Tree.preserved_setup`: the whole setup.
-/

namespace BootTree

namespace Setup

open Blob

variable {soc : Soc} {first tree tree' : Tree} {doc₀ doc doc' : Document} {place place' : Nat → Nat}
  {n : Nat} {ref : NodeRef} {name value path : Bytes}

/-! ## The steps of the setup -/

theorem leads_reserveAuxiliary (memory : Reservation) :
    (reserveAuxiliary memory).Leads (Traceable soc first doc₀) fun _ => Traceable soc first doc₀ := by
  rintro tree ⟨doc, place, hpreserved, hfollowed⟩
  have hafter : (Fixup.result (reserveAuxiliary memory) tree).2 =
      ((withGrowth (Tree.reserve memory)).result tree).2 := by
    unfold reserveAuxiliary Attempt.result
    rw [Fixup.result_bind]
    generalize (Fixup.result (withGrowth (Tree.reserve memory)).run tree).1 = outcome
    cases outcome <;> rfl
  rw [hafter]
  exact ⟨doc, place, hpreserved.reserve memory, hfollowed⟩

theorem leads_restrict (owns : Ownership) :
    (PowerDomain.restrict owns).Leads (Traceable soc first doc₀)
      fun _ => Traceable soc first doc₀ := by
  rintro tree ⟨doc, place, hpreserved, hfollowed⟩
  obtain ⟨nodes, stop, hprogress, -⟩ :=
    (hpreserved.holds (by simp [writtenNames])).restrict owns
  refine ⟨doc.disable nodes, place, ?_, ?_⟩
  · refine hpreserved.step hprogress.holds.stores (Document.kept_disable hprogress.lt_size) ?_
      (confined_restrict (by simp [writtenNames]) owns tree)
    rintro i _ _ ⟨rfl, rfl⟩
    exact .status
  · intro path i hfind
    rw [Document.find?_disable] at hfind
    exact hfollowed path i hfind

theorem leads_reconcile (owns : Ownership) (granted : Nat → Bool) :
    (Edma.reconcile owns soc.channelMap granted).Leads (Traceable soc first doc₀)
      fun _ => Traceable soc first doc₀ := by
  rintro tree ⟨doc, place, hpreserved, hfollowed⟩
  have hholds : Tree.Holds Edma.maskName tree doc :=
    hpreserved.holds (by simp [writtenNames, Edma.maskName])
  obtain ⟨doc', -, hholds', houtline, hsame, hproperties⟩ :=
    @Tree.Holds.reconcile tree doc owns hholds soc.channelMap granted
  have hkept : Kept (fun i => Retained fun name _ => name ∈ Edma.controllerNames ∧
      (soc.channelMap.filter fun range => doc.find? range.nodePath = some i) ≠ []) doc doc' id := by
    refine .ofOutline houtline ?_
    intro i hi
    obtain ⟨node, hnode⟩ := Option.isSome_iff_exists.1 (Forest.node?_isSome_iff.2 hi)
    have hbefore : doc.properties? i = some node.properties := by
      rw [Document.properties?, Document.node?, hnode]
      rfl
    obtain ⟨properties', hafter, hsettled⟩ := hproperties i _ hbefore
    rw [Document.propertiesAt, hbefore, Document.propertiesAt, hafter]
    exact .ofTrimmed hsettled.trimmed
  refine ⟨doc', place, hpreserved.step hholds'.stores hkept ?_
    (confined_reconcile (by simp [writtenNames]) (by simp [writtenNames]) owns _ _ tree), ?_⟩
  · rintro i name value ⟨hname, hranges⟩
    obtain ⟨range, hrange⟩ := List.exists_mem_of_ne_nil _ hranges
    obtain ⟨hmem, hfind⟩ := List.mem_filter.1 hrange
    exact .controller value hmem (hfollowed _ i (by simpa using hfind)) hname
  · intro path i hfind
    exact hfollowed path i ((hsame path).symm.trans hfind)

theorem leads_bindMasters (controller : Controller) :
    Attempt.Leads (Traceable soc first doc₀) (bindMasters controller)
      (fun _ => Traceable soc first doc₀) (Traceable soc first doc₀) := by
  apply Attempt.Leads.ofAfter
  intro tree htraceable
  exact htraceable

theorem leads_passSeed (entropy : Seed.Entropy) :
    (passSeed entropy).Leads (Traceable soc first doc₀) fun _ => Traceable soc first doc₀ := by
  have hstore (seed : Seed) : Attempt.Leads (Traceable soc first doc₀) (Seed.store seed)
      (fun _ => Traceable soc first doc₀) (Traceable soc first doc₀) := by
    refine leads_root.bind ?_
    intro root
    have hchild : Attempt.Leads (Found soc first doc₀ "/" root) (childOrAdd root "chosen")
        (Found soc first doc₀ "/chosen") (Traceable soc first doc₀) :=
      leads_childOfRoot (Bytes.isText_ofText _) rfl rfl
    refine hchild.bind ?_
    intro chosen
    have hlength : seed.toList.length < 2 ^ 32 := by simp
    have hset : Attempt.Leads (Found soc first doc₀ "/chosen" chosen)
        (setGrowing chosen "kaslr-seed" seed.toList) (fun _ => Traceable soc first doc₀)
        (Traceable soc first doc₀) :=
      leads_setGrowing_found (by simp [writtenNames]) (by simp) hlength fun _ => .seed _
    refine hset.bind ?_
    intro _
    exact .lift fun _ => id
  have hfresh : Attempt.Leads (Traceable soc first doc₀) (Seed.storeFresh entropy)
      (fun _ => Traceable soc first doc₀) (Traceable soc first doc₀) := by
    cases entropy with
    | error e => exact .ofAfter fun _ => id
    | ok seed => exact (hstore seed).mapError _
  intro tree htraceable
  have hafter := hfresh.after tree htraceable
  unfold passSeed
  rw [Fixup.result_bind]
  generalize (Fixup.result (Seed.storeFresh entropy).run tree).1 = outcome at hafter ⊢
  cases outcome <;> exact hafter

theorem leads_reserveOnce (os : SecureOs) :
    Attempt.Leads (Unharmed soc first doc₀) os.reserveOnce (fun _ => Unharmed soc first doc₀)
      (Unharmed soc first doc₀) := by
  refine Attempt.Leads.bind (.get fun _ => id) ?_
  intro tree
  split
  · exact .pure fun _ => id
  · apply Attempt.Leads.ofAfter
    rintro tree ⟨doc, place, hpreserved⟩
    exact ⟨doc, place, hpreserved.reserve _⟩

theorem leads_grow (increment : Nat) :
    Attempt.Leads (Traceable soc first doc₀) (Attempt.edit (Tree.grow increment))
      (fun _ => Traceable soc first doc₀) (Traceable soc first doc₀) := by
  apply Attempt.Leads.edit
  · intro tree _ tree' htraceable hgrow
    rcases tree.grow_cases increment with ⟨e, herror⟩ | hgrown
    · rw [herror] at hgrow
      cases hgrow
    · rw [hgrown] at hgrow
      cases hgrow
      exact htraceable.withFree _
  · intro tree e tree' htraceable hgrow
    rw [(Tree.atomic_grow increment tree e tree' hgrow).1]
    exact htraceable

/-- One of the two properties that describe the secure operating system. -/
theorem leads_setText (hname : name = "compatible" ∨ name = "method") {text : Bytes}
    (htext : text.length + 1 < 2 ^ 32) :
    Attempt.Leads (Reached soc first doc₀ "/firmware/optee" ref)
      (withGrowth (Tree.setText ref name text))
      (fun _ => Reached soc first doc₀ "/firmware/optee" ref) (Unharmed soc first doc₀) := by
  refine Attempt.Leads.failing (leads_setGrowing_reached ?_ ?_ (by simpa using htext)
    fun i => .secureOs _ hname) fun _ => Reached.unharmed
  · rcases hname with rfl | rfl <;> simp [writtenNames]
  · rcases hname with rfl | rfl <;> simp

theorem leads_describe (os : SecureOs) :
    Attempt.Leads (Traceable soc first doc₀) os.describe (fun _ => Unharmed soc first doc₀)
      (Unharmed soc first doc₀) := by
  have hfirmware (root : NodeRef) : Attempt.Leads (Found soc first doc₀ "/" root)
      (childOrAdd root "firmware") (Found soc first doc₀ "/firmware") (Traceable soc first doc₀) :=
    leads_childOfRoot (Bytes.isText_ofText _) rfl rfl
  have hnode (firmware : NodeRef) : Attempt.Leads (Found soc first doc₀ "/firmware" firmware)
      (childOrAdd firmware "optee") (Reached soc first doc₀ "/firmware/optee")
      (Traceable soc first doc₀) :=
    leads_childOfFound (Bytes.isText_ofText _) rfl rfl
  unfold SecureOs.describe
  refine ((leads_grow _).failing fun _ => Traceable.unharmed).bind ?_
  intro _
  refine (leads_root.failing fun _ => Traceable.unharmed).bind ?_
  intro root
  refine ((hfirmware root).failing fun _ => Traceable.unharmed).bind ?_
  intro firmware
  refine ((hnode firmware).failing fun _ => Traceable.unharmed).bind ?_
  intro node
  refine (leads_setText (.inl rfl) (by decide)).bind ?_
  intro _
  have hlast : Attempt.Leads (Reached soc first doc₀ "/firmware/optee" node)
      (withGrowth (Tree.setText node "method" "smc")) (fun _ => Unharmed soc first doc₀)
      (Unharmed soc first doc₀) :=
    (leads_setText (.inr rfl) (by decide)).weaken (fun _ _ => Reached.unharmed) fun _ => id
  refine hlast.bind ?_
  intro _
  exact .optional (leads_reserveOnce os) (.lift fun _ => id)

/-! ## The whole setup -/

section Whole

variable {config : Config}

theorem leads_step {x : Fixup Unit}
    (h : x.Leads (Traceable config.soc first doc₀) fun _ => Traceable config.soc first doc₀) :
    Attempt.Leads (Traceable config.soc first doc₀) (liftM x : Attempt SetupError Unit)
      (fun _ => Traceable config.soc first doc₀) (Unharmed config.soc first doc₀) := .lift h

/-- The first step, if it is wanted and there is something to reserve, and the others behind it. -/
theorem leads_reserving {rest : Unit → Attempt SetupError Unit}
    (hrest : Attempt.Leads (Traceable config.soc first doc₀) (rest ())
      (fun _ => Unharmed config.soc first doc₀) (Unharmed config.soc first doc₀)) :
    Attempt.Leads (Traceable config.soc first doc₀)
      (if config.steps.reserveAuxiliary = true then
        match config.auxiliary with
        | some memory => liftM (reserveAuxiliary memory) >>= rest
        | _ => rest ()
      else rest ())
      (fun _ => Unharmed config.soc first doc₀) (Unharmed config.soc first doc₀) := by
  split
  · cases config.auxiliary with
    | none => exact hrest
    | some memory => exact (leads_step (leads_reserveAuxiliary memory)).bind fun _ => hrest
  · exact hrest

theorem leads_setup (config : Config) (platform : Platform) (granted : Nat → Bool) :
    Attempt.Leads (Traceable config.soc first doc₀) (setup config platform granted)
      (fun _ => Unharmed config.soc first doc₀) (Unharmed config.soc first doc₀) := by
  refine leads_reserving ?_
  refine .optional (leads_step (leads_restrict _)) ?_
  refine (leads_step (leads_reconcile _ granted)).bind ?_
  intro _
  refine .optional ((leads_bindMasters _).failing fun _ => Traceable.unharmed) ?_
  refine .optional (leads_step (leads_passSeed _)) ?_
  cases config.secureOs with
  | none => exact .pure fun _ => Traceable.unharmed
  | some os => exact (leads_describe os).mapError _

end Whole

end Setup

open Setup

/-- **What the setup leaves alone.** Whatever the configuration, whatever the controller and the
source of random bytes answer, wherever memory is refused and wherever the setup ends: all nodes are
still there, in the old order, with their names and below their parents; no node becomes usable and
no channel that a mask switches off is switched on; reservations are only added behind the old ones;
and of the old properties only those that `MayChange` names have other values. -/
theorem Tree.preserved_setup {tree : Tree} {doc : Document} (config : Config) (platform : Platform)
    (granted : Nat → Bool) (hdoc : tree.Stores doc) (hsize : tree.totalSize < 2 ^ 32) :
    ∃ doc' place, ((setup config platform granted).result tree).2.Stores doc' ∧
      Kept (fun i => Overlay (MayChange config.soc doc i)) doc doc' place ∧
      (∀ i < doc.forest.size, doc.isEnabled i = false → doc'.isEnabled (place i) = false) ∧
      (∀ i < doc.forest.size, ∀ mask, doc.cell i "dma-channel-mask" = .ok (some mask) →
        ∃ mask', doc'.cell (place i) "dma-channel-mask" = .ok (some mask') ∧
          ∀ channel, Edma.isMasked mask channel = true → Edma.isMasked mask' channel = true) ∧
      tree.reserved <+: ((setup config platform granted).result tree).2.reserved := by
  have hstart : Traceable config.soc tree doc tree :=
    ⟨doc, id, .start hdoc hsize, fun _ _ => id⟩
  have hafter : Unharmed config.soc tree doc ((setup config platform granted).result tree).2 :=
    (leads_setup config platform granted).after tree hstart
  obtain ⟨doc', place, hpreserved⟩ := hafter
  have hkept := hpreserved.kept
  refine ⟨doc', place, hpreserved.stores,
    ⟨hkept.ordered, hkept.entry, hkept.parent, fun i hi => (hkept.properties i hi).overlay⟩, ?_, ?_,
    hpreserved.reserved⟩
  · intro i hi hdisabled
    exact (hkept.properties i hi).isEnabled hdisabled
  · intro i hi mask hmask
    exact (hkept.properties i hi).mask mask hmask

/-! ## A board that gets all of it -/

namespace Setup

/-- All steps, for a chip with both a secure system and an auxiliary core. -/
def everyStep : Config := ⟨.imx8qm, ⟨true, true, true⟩, some ⟨0x88000000, 0x8000000⟩,
  some ⟨0xfe000000, 0x2000000, true⟩⟩

/-- A controller that owns nothing and binds nothing. -/
def foreign : Platform := ⟨⟨fun _ _ => false, fun _ _ => .error .noAccess⟩, .ok (.replicate 8 7)⟩

/-- A DMA controller whose first channel is switched off, a serial port that is not used, and a seed
from an earlier boot. -/
def boardDocument : Document where
  name := []
  properties := []
  children :=
    .node "chosen" [⟨"kaslr-seed", Bytes.word 1⟩] .nil
    (.node "bus@5a000000" []
      (.node "dma-controller@5a1f0000"
        [⟨"reg", Cells.encode [0x5a1f0000, 0x10000]⟩, ⟨"interrupts", Cells.encode [0, 374, 4]⟩,
          ⟨"dma-channels", Bytes.word 32⟩, ⟨"dma-channel-mask", Bytes.word 1⟩] .nil
      (.node "serial@5a060000" [⟨"status", disabledStatus⟩] .nil .nil)) .nil)

/-- The board's tree, which may grow only once. -/
def boardTree : Tree :=
  (boardDocument.write (StringList.join ["kaslr-seed", "reg", "interrupts", "dma-channels",
    "dma-channel-mask", "status"]) 0).withMaxSize 1024

theorem stores_boardTree : boardTree.Stores boardDocument := by
  have hwritten : (boardDocument.write (StringList.join ["kaslr-seed", "reg", "interrupts",
      "dma-channels", "dma-channel-mask", "status"]) 0).Stores boardDocument :=
    Document.stores_write (by decide) rfl 0
  exact hwritten

theorem totalSize_boardTree : boardTree.totalSize < 2 ^ 32 := by decide +kernel

/-- The board's document afterwards: all channels are switched off, and the seed is another one. -/
def boardAfter : Document where
  name := []
  properties := []
  children :=
    .node "chosen" [⟨"kaslr-seed", .replicate 8 7⟩] .nil
    (.node "bus@5a000000" []
      (.node "dma-controller@5a1f0000"
        [⟨"reg", Cells.encode [0x5a1f0000, 0x10000]⟩, ⟨"interrupts", Cells.encode [0, 374, 4]⟩,
          ⟨"dma-channels", Bytes.word 32⟩, ⟨"dma-channel-mask", Bytes.word 0xffffffff⟩] .nil
      (.node "serial@5a060000" [⟨"status", disabledStatus⟩] .nil .nil)) .nil)

end Setup

/-- The limit keeps the secure operating system from being described, which ends the setup. The serial
port stays unused, and the first channel stays off. -/
theorem Tree.preserved_setup_boardTree :
    ((setup everyStep foreign).result boardTree).1 =
        .error (.secureOs (.sizeLimit 1371 1024)) ∧
      ((setup everyStep foreign).result boardTree).2.Stores boardAfter ∧
      ((setup everyStep foreign).result boardTree).2.reserved = [⟨0x88000000, 0x8000000⟩] ∧
      ∃ place, (∀ i < 5, place i = i) ∧
        Kept (fun i => Overlay (MayChange .imx8qm boardDocument i)) boardDocument boardAfter place ∧
        boardAfter.isEnabled (place 4) = false := by
  have hrun : ((setup everyStep foreign).result boardTree).2 =
      { boardAfter.write (StringList.join ["kaslr-seed", "reg", "interrupts", "dma-channels",
          "dma-channel-mask", "status"]) 492 with
        reservations := [⟨0x88000000, 0x8000000⟩]
        maxSize := some 1024 } := by
    decide +kernel
  have hafter : ((setup everyStep foreign).result boardTree).2.Stores boardAfter := by
    rw [hrun]
    exact @Document.stores_write boardAfter _ (by decide) rfl 492
  obtain ⟨doc', place, hstores, hkept, hdisabled, -⟩ :=
    preserved_setup everyStep foreign (fun _ => true) stores_boardTree totalSize_boardTree
  obtain rfl := hstores.unique hafter
  have hserial : boardDocument.isEnabled 4 = false := by rfl
  have hplace : ∀ i < 5, place i = i := by
    have h₀ := hkept.ordered 0 1 (by decide)
    have h₁ := hkept.ordered 1 2 (by decide)
    have h₂ := hkept.ordered 2 3 (by decide)
    have h₃ := hkept.ordered 3 4 (by decide)
    have h₄ : place 4 < 5 := hkept.lt_size (by decide)
    intro i hi
    interval_cases i <;> omega
  exact ⟨by decide +kernel, hafter, by decide +kernel, place, hplace, hkept,
    hdisabled 4 (by decide) hserial⟩

end BootTree
