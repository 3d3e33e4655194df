import BootTree.Proofs.Edma.Dropping
import BootTree.Proofs.Tree.Replacing

/-!
# BootTree.Proofs.Edma.Whole

The arrays of a controller are written one by one, each on its own, but never only some of them. No
array gets longer and each has a value to take the place of, so every write finds its space in what it
replaces, whatever bytes the tree holds, without free space, and at its largest size.

* `Edma.ChannelArrays.ReadFrom`: the arrays that a node's properties hold.
* `Edma.Writes`: values written one after another, each at the first try; `Edma.exists_writes`.
* `Edma.dropChannels_whole`: all arrays are written, or the tree is left as it was.
* `Edma.logged_dropChannels_false`: what is said if there is no memory for the name lists.
-/

namespace BootTree

namespace Edma

variable {tree : Tree} {node : NodeRef} {registers : List UInt32}

/-- The arrays of a controller, all of them readable, and at least one channel. -/
structure ChannelArrays.ReadFrom (arrays : ChannelArrays) (tree : Tree) (node : NodeRef) : Prop where
  registers : tree.cells node "reg" = .ok (some arrays.registers)
  interrupts : tree.cells node "interrupts" = .ok (some arrays.interrupts)
  channels : tree.cell node "dma-channels" = .ok (some arrays.channels)
  channels_ne_zero : arrays.channels ≠ 0
  interruptNames : tree.value node "interrupt-names" = .ok (some arrays.interruptNames)
  powerDomains : tree.cells node "power-domains" = .ok (some arrays.powerDomains)
  powerDomainNames : tree.value node "power-domain-names" = .ok (some arrays.powerDomainNames)

theorem readArrays_eq_some_iff {arrays : ChannelArrays}
    (hreg : tree.cells node "reg" = .ok (some registers)) :
    readArrays tree node registers = .ok (some arrays) ↔ arrays.ReadFrom tree node := by
  have hparts : readArrays tree node registers = .ok (some arrays) ↔ _ :=
    @arrays_eq_some_iff (tree.cells node "interrupts") (tree.cells node "power-domains")
      (tree.cell node "dma-channels") (tree.value node "interrupt-names")
      (tree.value node "power-domain-names") registers arrays
  rw [hparts]
  constructor
  · rintro ⟨rfl, hchannels, hinterrupts, hcount, hnames, hdomains, hdomainNames⟩
    exact ⟨hreg, hinterrupts, hcount, hchannels, hnames, hdomains, hdomainNames⟩
  · intro h
    have hsame := h.registers
    rw [hreg, Except.ok.injEq, Option.some.injEq] at hsame
    exact ⟨hsame.symm, h.channels_ne_zero, h.interrupts, h.channels, h.interruptNames,
      h.powerDomains, h.powerDomainNames⟩

theorem ChannelArrays.ReadFrom.decodedFrom {arrays : ChannelArrays} (h : arrays.ReadFrom tree node) :
    arrays.DecodedFrom fun name value => tree.value node name = .ok (some value) where
  registers := Tree.valueAs_eq_some_iff.1 h.registers
  interrupts := Tree.valueAs_eq_some_iff.1 h.interrupts
  channels := Tree.valueAs_eq_some_iff.1 h.channels
  interruptNames := h.interruptNames
  powerDomains := Tree.valueAs_eq_some_iff.1 h.powerDomains
  powerDomainNames := h.powerDomainNames

/-- The values of its properties are read as the arrays. -/
theorem ChannelArrays.ReadFrom.ofValues {arrays : ChannelArrays}
    (h : ∀ w ∈ arrays.properties, tree.value node w.1 = .ok (some w.2))
    (hchannels : arrays.channels ≠ 0) : arrays.ReadFrom tree node := by
  simp only [ChannelArrays.properties, List.forall_mem_cons] at h
  obtain ⟨hreg, hinterrupts, hcount, hnames, hdomains, hdomainNames, -⟩ := h
  exact ⟨Tree.valueAs_eq_some_iff.2 ⟨_, hreg, Cells.decode_encode _⟩,
    Tree.valueAs_eq_some_iff.2 ⟨_, hinterrupts, Cells.decode_encode _⟩,
    Tree.valueAs_eq_some_iff.2 ⟨_, hcount, singleCell_word _⟩, hchannels, hnames,
    Tree.valueAs_eq_some_iff.2 ⟨_, hdomains, Cells.decode_encode _⟩, hdomainNames⟩

/-! ## One write after another -/

/-- Values written to a node one after another, each at the first try. -/
inductive Writes (node : NodeRef) : List (String × Bytes) → Tree → Tree → Prop
  | nil {tree : Tree} : Writes node [] tree tree
  | cons {tree next after : Tree} {w : String × Bytes} {ws : List (String × Bytes)} :
      Tree.setValue node w.1 w.2 tree = .ok () next → Writes node ws next after →
        Writes node (w :: ws) tree after

theorem Writes.result_updates {writes : List (String × Bytes)} {after : Tree}
    (h : Writes node writes tree after) (path : String) :
    Fixup.result (writes.forM fun w => update node path w.1 w.2) tree = ((), after) := by
  induction h with
  | nil => rfl
  | cons hset _ ih =>
    rw [Fixup.result_forM_cons, result_update (result_withGrowth_of_ok hset)]
    exact ih

/-- Values that take the places of values which are not shorter are all written. -/
theorem exists_writes {writes : List (String × Bytes)}
    (hnodup : (writes.map fun w => Bytes.ofText w.1).Nodup)
    (hfits : ∀ w ∈ writes, ∃ old, tree.value node w.1 = .ok (some old) ∧
      w.2.length ≤ old.length) :
    ∃ after, Writes node writes tree after ∧ after.totalSize = tree.totalSize ∧
      (∀ w ∈ writes, after.value node w.1 = .ok (some w.2)) ∧
      ∀ name v, (∀ w ∈ writes, name ≠ Bytes.ofText w.1) → tree.value node name = .ok (some v) →
        after.value node name = .ok (some v) := by
  induction writes generalizing tree with
  | nil => exact ⟨tree, .nil, rfl, by simp, fun _ _ _ hv => hv⟩
  | cons w ws ih =>
    rw [List.map_cons, List.nodup_cons] at hnodup
    have hne : ∀ v ∈ ws, Bytes.ofText v.1 ≠ Bytes.ofText w.1 := by
      intro v hv heq
      exact hnodup.1 (heq ▸ List.mem_map_of_mem hv)
    obtain ⟨old, hold, hle⟩ := hfits w List.mem_cons_self
    obtain ⟨next, hset, hsize, hwritten, hkept⟩ := Tree.setValue_of_length_le hold hle
    obtain ⟨after, hwrites, hsize', hall, hothers⟩ := @ih next hnodup.2 (by
      intro v hv
      obtain ⟨old, hold, hle⟩ := hfits v (List.mem_cons_of_mem _ hv)
      exact ⟨old, hkept _ _ (hne v hv) hold, hle⟩)
    refine ⟨after, .cons hset hwrites, hsize'.trans hsize, ?_, ?_⟩
    · rw [List.forall_mem_cons]
      exact ⟨hothers _ _ (fun v hv => (hne v hv).symm) hwritten, hall⟩
    · intro name v hname hv
      rw [List.forall_mem_cons] at hname
      exact hothers _ _ hname.2 (hkept _ _ hname.1 hv)

/-! ## All arrays or none -/

/-- **All arrays or none.** If a controller has all its arrays and at least one channel, and loses some
of them, then all six properties are written, they are read back as the compacted arrays, and the tree
keeps its size. In every other case the tree stays as it was, and so it does if there is no memory for
the new name lists. -/
theorem dropChannels_whole (owns : Ownership) (range : ChannelRange)
    (hreg : tree.cells node "reg" = .ok (some registers)) :
    (∀ arrays : ChannelArrays, arrays.ReadFrom tree node →
        unowned owns (registerCandidates range registers) ≠ [] →
      ∃ compacted after, compacted = arrays.compact (RemovalSet.ofList
          ((unowned owns (registerCandidates range registers)).map Candidate.index)) ∧
        (dropChannels owns range node registers).result tree = (.ok (), after) ∧
        Writes node compacted.properties tree after ∧
        (∀ w ∈ compacted.properties, after.value node w.1 = .ok (some w.2)) ∧
        after.totalSize = tree.totalSize) ∧
    ((¬ ∃ arrays : ChannelArrays, arrays.ReadFrom tree node ∧
        unowned owns (registerCandidates range registers) ≠ []) →
      ((dropChannels owns range node registers).result tree).2 = tree) ∧
    ((dropChannels owns range node registers false).result tree).2 = tree := by
  rw [result_dropChannels_eq]
  refine ⟨?_, ?_, result_dropChannels_false registers⟩
  · intro arrays harrays hlost
    obtain ⟨after, hwrites, hsize, hvalues, -⟩ := exists_writes (ChannelArrays.nodup_properties _)
      (harrays.decodedFrom.exists_longer_value (RemovalSet.ofList
        ((unowned owns (registerCandidates range registers)).map Candidate.index)))
    refine ⟨_, after, rfl, ?_, hwrites, hvalues, hsize⟩
    have hresult := hwrites.result_updates range.nodePath
    rw [(readArrays_eq_some_iff hreg).2 harrays]
    dsimp only
    rw [if_neg hlost]
    exact congrArg (Prod.mk _) (congrArg Prod.snd hresult)
  · intro hother
    cases hread : readArrays tree node registers with
    | error e => rfl
    | ok found =>
      cases found with
      | none => rfl
      | some arrays =>
        have hkept : unowned owns (registerCandidates range registers) = [] := by
          by_contra hlost
          exact hother ⟨arrays, (readArrays_eq_some_iff hreg).1 hread, hlost⟩
        dsimp only
        rw [if_pos hkept]

/-- The last thing said of a controller that is to lose channels, but has no memory for its new name
lists. -/
theorem logged_dropChannels_false {owns : Ownership} {range : ChannelRange} {arrays : ChannelArrays}
    (hread : readArrays tree node registers = .ok (some arrays))
    (hlost : unowned owns (registerCandidates range registers) ≠ []) :
    [.logged ⟨.error, logTarget,
      s!"could not allocate the new name lists of {range.nodePath}, leaving it unchanged"⟩] <:+
        (dropChannels owns range node registers false).events tree := by
  unfold dropChannels
  rw [Attempt.events_bind_of_ok (a := some arrays) (by rw [Attempt.result_ask, hread])]
  dsimp only
  rw [Attempt.events_bind_of_ok (Attempt.result_lift (Fixup.result_log _ _ _ tree)),
    Attempt.events_bind_of_ok (Attempt.result_lift (Fixup.result_log _ _ _ tree)),
    Attempt.events_bind_of_ok (Attempt.result_lift (Fixup.result_log _ _ _ tree)),
    Attempt.events_bind_of_ok (Attempt.result_lift (Fixup.result_tell _ tree)), if_pos hlost,
    Attempt.events_lift]
  simp only [← List.append_assoc]
  exact List.suffix_append _ _

end Edma

/-! ## A tree that is full -/

namespace Tree

open Edma

/-- The audio DMA controller in a tree without free space that may not grow. -/
def fullController : Tree := { audioRegisters with maxSize := some audioRegisters.totalSize }

theorem fullController_stores : fullController.Stores (audioDocument audioRegisterProperties) :=
  stores_audioRegisters

/-- The audio DMA controller without its sixth channel. -/
def fiveChannels : ChannelArrays where
  registers := [0x591f0000, 0x10000, 0x59200000, 0x10000, 0x59210000, 0x10000, 0x59220000, 0x10000,
    0x59230000, 0x10000, 0x59240000, 0x10000]
  interrupts := [0, 374, 4, 0, 375, 4, 0, 376, 4, 0, 377, 4, 0, 378, 4]
  channels := 5
  interruptNames := StringList.join ["ch0", "ch1", "ch2", "ch3", "ch4"]
  powerDomains := [1, 289, 1, 290, 1, 291, 1, 292, 1, 293]
  powerDomainNames := StringList.join ["pd0", "pd1", "pd2", "pd3", "pd4"]

/-- Without the resource of the sixth channel, that channel is taken out of all arrays. -/
theorem dropChannels_whole_fullController :
    fullController.free = 0 ∧ fullController.maxSize = some fullController.totalSize ∧
      ∃ node after, fullController.resolve audioRange.nodePath = .ok (some node) ∧
        (dropChannels (ownsAllBut [323]) audioRange node audioArrays.registers).result fullController =
          (.ok (), after) ∧
        Writes node fiveChannels.properties fullController after ∧
        fiveChannels.ReadFrom after node ∧ after.totalSize = fullController.totalSize ∧
        ((dropChannels (ownsAllBut [323]) audioRange node audioArrays.registers false).result
          fullController).2 = fullController := by
  refine ⟨by decide +kernel, by decide +kernel, ?_⟩
  obtain ⟨node, _, _, _, _, _, hresolve, href, -⟩ :=
    fullController_stores.exists_of_find? (find?_audioDocument _)
  have hproperties := properties?_audioDocument audioRegisterProperties
  obtain ⟨hreg, -, harrays⟩ := registerController_audioRegisters.arraysOf
  have hcells : fullController.cells node "reg" = .ok (some audioArrays.registers) :=
    (fullController_stores.valueAs href hproperties Cells.decode "reg").trans hreg
  have hread : readArrays fullController node audioArrays.registers = .ok (some audioArrays) :=
    (readArrays_eq fullController_stores href hproperties _).trans (harrays (by decide))
  have hlost : unowned (ownsAllBut [323]) (registerCandidates audioRange audioArrays.registers) ≠ [] := by
    decide +kernel
  obtain ⟨hwhole, -, hrefused⟩ := dropChannels_whole (ownsAllBut [323]) audioRange hcells
  obtain ⟨compacted, after, hcompacted, hresult, hwrites, hvalues, hsize⟩ :=
    hwhole audioArrays ((readArrays_eq_some_iff hcells).1 hread) hlost
  have hfive : compacted = fiveChannels := by
    rw [hcompacted]
    decide +kernel
  subst hfive
  exact ⟨node, after, hresolve, hresult, hwrites, .ofValues hvalues (by decide), hsize, hrefused⟩

end Tree

end BootTree
