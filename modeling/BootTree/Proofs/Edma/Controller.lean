import BootTree.Proofs.Edma.Settle

/-!
# BootTree.Proofs.Edma.Controller

One controller of a tree that stores a document, after one range of a channel map. Only a limit of
the tree's size can keep a mask from being written; no array of a controller gets longer, so arrays
are written whatever the limit.

* `Edma.maskChannels_cases`, `Edma.result_maskChannels`: a controller with a channel mask.
* `Edma.result_dropChannels_eq`: a controller with a register range per channel, in any tree.
* `Edma.result_dropChannels`: such a controller in a tree that stores a document.
-/

namespace BootTree

namespace Edma

variable {tree : Tree} {doc : Document} {i : Nat} {ref : NodeRef} {properties : List Property}
  {owns : Ownership} {range : ChannelRange}

/-- The only property that a controller may lack. -/
def maskName : Bytes := "dma-channel-mask"

theorem result_update {tree' : Tree} {outcome : Except TreeError Unit} {path property : String}
    {value : Bytes} (h : (setGrowing ref property value).result tree = (outcome, tree')) :
    (update ref path property value).result tree = ((), tree') := by
  unfold Attempt.result at h
  rw [update, Fixup.result_bind, h]
  cases outcome <;> rfl

/-- Values that are not longer than those in their places are all written. -/
theorem result_updates {fresh : Bytes} (path : String) {writes : List (String × Bytes)}
    (h : Tree.Holds fresh tree doc) (href : tree.nodes[i]? = some ref)
    (hproperties : doc.properties? i = some properties)
    (hnodup : (writes.map fun w => Bytes.ofText w.1).Nodup)
    (hfits : ∀ w ∈ writes, ∃ old, valueOf? properties w.1 = some old ∧ w.2.length ≤ old.length) :
    ∃ tree', Fixup.result (writes.forM fun w => update ref path w.1 w.2) tree = ((), tree') ∧
      tree.SameFrame tree' ∧ Tree.Holds fresh tree' (doc.alter (writeAll writes) id i) := by
  induction writes generalizing tree doc properties with
  | nil =>
    refine ⟨tree, rfl, .refl tree, ?_⟩
    have hsame : writeAll [] properties = properties := rfl
    rw [Document.alter_eq_self hproperties hsame]
    exact h
  | cons w ws ih =>
    rw [List.map_cons, List.nodup_cons] at hnodup
    obtain ⟨old, hold, hle⟩ := hfits w List.mem_cons_self
    obtain ⟨tree₁, hset, hframe, hholds, href₁⟩ := h.replace href hproperties hold hle
    have hlt : i < doc.forest.size := by
      rw [← h.stores.length_nodes]
      exact (List.getElem?_eq_some_iff.1 href).1
    have hproperties₁ : (doc.alter (withValue w.1 w.2) id i).properties? i =
        some (withValue w.1 w.2 properties) := by
      rw [Document.properties?_alter _ _ _ _ hlt, if_pos rfl, hproperties]
      rfl
    obtain ⟨tree₂, hresult, hframe₂, hholds₂⟩ := ih hholds href₁ hproperties₁ hnodup.2 (by
      intro v hv
      have hne : Bytes.ofText v.1 ≠ Bytes.ofText w.1 := by
        intro heq
        exact hnodup.1 (heq ▸ List.mem_map_of_mem hv)
      rw [valueOf?_withValue_of_ne hne]
      exact hfits v (List.mem_cons_of_mem _ hv))
    refine ⟨tree₂, ?_, hframe.trans hframe₂, ?_⟩
    · rw [Fixup.result_forM_cons, result_update hset, hresult]
    · rw [Document.alter_alter] at hholds₂
      exact hholds₂

/-! ## Controllers with a channel mask -/

/-- A mask is written if it is another one than before. -/
theorem result_writeMask {p : List Property → List Property} {mask old : UInt32}
    (h : Tree.Holds maskName tree doc) (href : tree.nodes[i]? = some ref)
    (hproperties : doc.properties? i = some properties) (path : String)
    (hp : p properties = if mask = old then properties
      else withValue "dma-channel-mask" (Bytes.word mask) properties) :
    ∃ tree', Attempt.result (if mask ≠ old then
        (liftM (update ref path "dma-channel-mask" (Bytes.word mask)) : Attempt TreeError Unit)
      else pure ()) tree = (.ok (), tree') ∧
        Tree.Written maskName tree tree' doc (doc.alter p id i) := by
  by_cases hsame : mask = old
  · rw [if_pos hsame] at hp
    rw [if_neg (not_not_intro hsame), Document.alter_eq_self hproperties hp]
    exact ⟨tree, rfl, .refl h⟩
  · have hcost : Tree.propertyCost (Bytes.word mask) + (maskName.length + 1) ≤ growIncrement := by
      rw [Tree.propertyCost, Bytes.length_word]
      decide
    obtain ⟨outcome, tree', hset, hwritten, -⟩ := h.write href (by decide) hcost
    rw [if_neg hsame] at hp
    rw [if_pos hsame, Document.alter_congr hproperties hp]
    exact ⟨tree', Attempt.result_lift (result_update hset), hwritten⟩

/-- A controller with a channel mask is left alone, or all depends on whether its mask changes. -/
theorem maskChannels_cases (h : tree.Stores doc) (href : tree.nodes[i]? = some ref)
    (hproperties : doc.properties? i = some properties) (owns : Ownership) (range : ChannelRange) :
    (∃ outcome, (maskChannels owns range ref).result tree = (outcome, tree) ∧
      settleMask owns range properties = properties) ∨
    ∃ channels old, (valueOf? properties "interrupts").isSome = true ∧
      readAs Tree.singleCell properties "dma-channels" = .ok (some channels) ∧ channels ≠ 0 ∧
      readAs Tree.singleCell properties "dma-channel-mask" = .ok old ∧
      (maskChannels owns range ref).result tree =
        Attempt.result (if maskedBy owns range channels (old.getD 0) ≠ old.getD 0 then
            liftM (update ref range.nodePath "dma-channel-mask"
              (Bytes.word (maskedBy owns range channels (old.getD 0))))
          else pure ()) tree := by
  have hvalue := h.value href hproperties
  have hcell (name : Bytes) := h.valueAs href hproperties Tree.singleCell name
  unfold maskChannels
  rw [Attempt.result_bind_of_ok (a := valueOf? properties "interrupts")
    (by rw [Attempt.result_ask, hvalue])]
  cases hinterrupts : valueOf? properties "interrupts" with
  | none => exact .inl ⟨_, rfl, by simp [settleMask, hinterrupts]⟩
  | some interrupts =>
    cases hchannels : readAs Tree.singleCell properties "dma-channels" with
    | error e =>
      refine .inl ⟨_, Attempt.result_bind_of_error (e := e) ?_ _,
        by simp [settleMask, hinterrupts, hchannels]⟩
      rw [Attempt.result_ask, Tree.cell, hcell, hchannels]
    | ok count =>
      dsimp only
      rw [Attempt.result_bind_of_ok (a := count)
        (by rw [Attempt.result_ask, Tree.cell, hcell, hchannels])]
      by_cases hzero : count.getD 0 = 0
      · rw [if_pos hzero]
        exact .inl ⟨_, rfl, settleMask_of_getD_eq_zero hchannels hzero⟩
      · rw [if_neg hzero]
        cases hold : readAs Tree.singleCell properties "dma-channel-mask" with
        | error e =>
          refine .inl ⟨_, Attempt.result_bind_of_error (e := e) ?_ _,
            by simp [settleMask, hinterrupts, hchannels, hold]⟩
          rw [Attempt.result_ask, Tree.cell, hcell, hold]
        | ok old =>
          rw [Attempt.result_bind_of_ok (a := old)
            (by rw [Attempt.result_ask, Tree.cell, hcell, hold])]
          rw [Attempt.result_bind_of_ok (Attempt.result_lift (Fixup.result_tell _ tree))]
          cases count with
          | none => exact absurd rfl hzero
          | some channels => exact .inr ⟨channels, old, rfl, rfl, hzero, rfl, rfl⟩

/-- A controller with a channel mask after one range. -/
theorem result_maskChannels (h : Tree.Holds maskName tree doc) (href : tree.nodes[i]? = some ref)
    (hproperties : doc.properties? i = some properties) :
    ∃ outcome tree', (maskChannels owns range ref).result tree = (outcome, tree') ∧
      Tree.Written maskName tree tree' doc (doc.alter (settleMask owns range) id i) := by
  rcases maskChannels_cases h.stores href hproperties owns range with ⟨outcome, hresult, hsame⟩ |
    ⟨channels, old, hinterrupts, hchannels, hzero, hold, hresult⟩
  · rw [Document.alter_eq_self hproperties hsame]
    exact ⟨outcome, tree, hresult, .refl h⟩
  · obtain ⟨interrupts, hinterrupts⟩ := Option.isSome_iff_exists.1 hinterrupts
    have hsettle : settleMask owns range properties =
        if maskedBy owns range channels (old.getD 0) = old.getD 0 then properties
        else withValue "dma-channel-mask"
          (Bytes.word (maskedBy owns range channels (old.getD 0))) properties := by
      simp [settleMask, hinterrupts, hchannels, hold, hzero]
    obtain ⟨tree', hwrite, hwritten⟩ := result_writeMask h href hproperties range.nodePath hsettle
    rw [hresult]
    exact ⟨.ok (), tree', hwrite, hwritten⟩

/-! ## Controllers with a register range per channel -/

theorem readArrays_eq (h : tree.Stores doc) (href : tree.nodes[i]? = some ref)
    (hproperties : doc.properties? i = some properties) (registers : List UInt32) :
    readArrays tree ref registers = arraysOf properties registers := by
  have hvalue := h.value href hproperties
  have hvalueAs {α : Type} := @Tree.Stores.valueAs α _ _ _ _ _ h href hproperties
  unfold readArrays arraysOf
  simp only [Tree.cells, Tree.cell, hvalueAs, hvalue]
  rfl

@[simp] theorem replaceArrays_true (node : NodeRef) (path : String) (arrays : ChannelArrays) :
    replaceArrays node path arrays true = writeArrays node path arrays := if_pos rfl

/-- Dropping channels is reading the arrays and replacing them all, whatever the tree holds. -/
theorem result_dropChannels_eq (registers : List UInt32) (granted : Bool) :
    (dropChannels owns range ref registers granted).result tree =
      match readArrays tree ref registers with
      | .error e => (.error e, tree)
      | .ok none => (.ok (), tree)
      | .ok (some arrays) =>
        if unowned owns (registerCandidates range registers) = [] then (.ok (), tree)
        else (.ok (), (Fixup.result (replaceArrays ref range.nodePath
          (arrays.compact (RemovalSet.ofList
            ((unowned owns (registerCandidates range registers)).map Candidate.index)))
          granted) tree).2) := by
  unfold dropChannels
  cases hread : readArrays tree ref registers with
  | error e => exact Attempt.result_bind_of_error (e := e) (by rw [Attempt.result_ask, hread]) _
  | ok found =>
    rw [Attempt.result_bind_of_ok (a := found) (by rw [Attempt.result_ask, hread])]
    cases found with
    | none => rfl
    | some arrays =>
      dsimp only
      rw [Attempt.result_bind_of_ok (Attempt.result_lift (Fixup.result_log _ _ _ tree)),
        Attempt.result_bind_of_ok (Attempt.result_lift (Fixup.result_log _ _ _ tree)),
        Attempt.result_bind_of_ok (Attempt.result_lift (Fixup.result_log _ _ _ tree)),
        Attempt.result_bind_of_ok (Attempt.result_lift (Fixup.result_tell _ tree))]
      by_cases hlost : unowned owns (registerCandidates range registers) = []
      · rw [if_neg (not_not_intro hlost), if_pos hlost]
        rfl
      · rw [if_pos hlost, if_neg hlost]
        exact Attempt.result_lift rfl

/-- Without memory for its new name lists a controller stays as it is. -/
theorem result_dropChannels_false (registers : List UInt32) :
    ((dropChannels owns range ref registers false).result tree).2 = tree := by
  rw [result_dropChannels_eq]
  rcases readArrays tree ref registers with _ | _ | arrays
  · rfl
  · rfl
  · dsimp only
    split
    · rfl
    · rfl

/-- A controller with a register range per channel after one range. No array gets longer, so a limit
of the tree's size does not matter. -/
theorem result_dropChannels {registers : List UInt32} (h : Tree.Holds maskName tree doc)
    (href : tree.nodes[i]? = some ref) (hproperties : doc.properties? i = some properties)
    (hreg : readAs Cells.decode properties "reg" = .ok (some registers)) :
    ∃ outcome tree', (dropChannels owns range ref registers).result tree = (outcome, tree') ∧
      tree.SameFrame tree' ∧
        Tree.Holds maskName tree' (doc.alter (settleRegisters owns range registers) id i) := by
  have hunchanged (hsame : settleRegisters owns range registers properties = properties) :
      tree.SameFrame tree ∧
        Tree.Holds maskName tree (doc.alter (settleRegisters owns range registers) id i) := by
    rw [Document.alter_eq_self hproperties hsame]
    exact ⟨.refl tree, h⟩
  rw [result_dropChannels_eq, readArrays_eq h.stores href hproperties]
  cases harrays : arraysOf properties registers with
  | error e => exact ⟨_, tree, rfl, hunchanged (by simp [settleRegisters, harrays])⟩
  | ok found =>
    cases found with
    | none => exact ⟨_, tree, rfl, hunchanged (by simp [settleRegisters, harrays])⟩
    | some arrays =>
      dsimp only
      by_cases hlost : unowned owns (registerCandidates range registers) = []
      · rw [if_pos hlost]
        exact ⟨_, tree, rfl, hunchanged (by simp [settleRegisters, harrays, hlost])⟩
      · have hfits := (decodedFrom_of_arraysOf hreg harrays).exists_longer_value (RemovalSet.ofList
          ((unowned owns (registerCandidates range registers)).map Candidate.index))
        obtain ⟨tree', hresult, hframe, hholds⟩ := result_updates range.nodePath h href hproperties
          (ChannelArrays.nodup_properties _) hfits
        have hsettle : settleRegisters owns range registers properties =
            writeAll (arrays.compact (RemovalSet.ofList ((unowned owns
              (registerCandidates range registers)).map Candidate.index))).properties
              properties := by
          simp [settleRegisters, harrays, hlost]
        rw [if_neg hlost, replaceArrays_true, Document.alter_congr hproperties hsettle]
        exact ⟨.ok (), tree', congrArg (Prod.mk _) (congrArg Prod.snd hresult), hframe, hholds⟩

end Edma

end BootTree
