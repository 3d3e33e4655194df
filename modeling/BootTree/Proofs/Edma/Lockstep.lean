import BootTree.Proofs.Edma.Dropping

/-!
# BootTree.Proofs.Edma.Lockstep

The arrays of a controller with a register range per channel stay in step, whatever the channel map
and whether or not the tree's size has a limit. A range takes the same channels out of every array,
and no array gets longer, so each of the six writes is made. Once no channel is left the node looks
like a controller with a mask, and later ranges find no channels to switch off.

* `Tree.Holds.reconcileRange_controller`: one range, from the channels of a controller to those that
  the range keeps.
* `Tree.Holds.reconcile_controller`: a whole channel map.
* `Tree.exists_sublist_reconcile`: what is read from the controller afterwards.
-/

namespace BootTree

namespace Edma

theorem kept_sublist (owns : Ownership) (range : ChannelRange) (channels : List Channel) :
    (kept owns range channels).Sublist channels := by
  have hparts := (List.Sublist.refl (channels.take (range.startChannel.toNat - 1))).append
    (List.filter_sublist (p := fun c => !isForeign owns range c.base c.size)
      (l := channels.drop (range.startChannel.toNat - 1)))
  rwa [List.take_append_drop] at hparts

theorem foldl_kept_sublist (owns : Ownership) (ranges : List ChannelRange)
    (channels : List Channel) :
    (ranges.foldl (fun channels r => kept owns r channels) channels).Sublist channels := by
  induction ranges generalizing channels with
  | nil => exact .refl channels
  | cons range rest ih => exact (ih _).trans (kept_sublist owns range channels)

/-- A controller with a register range per channel whose `reg` has the two cells of one range has no
channels. -/
theorem RegisterController.eq_nil {properties : List Property} {base size : UInt32}
    {channels : List Channel} {registers : List UInt32}
    (h : RegisterController properties base size channels)
    (hreg : readAs Cells.decode properties "reg" = .ok (some registers))
    (hlength : registers.length = 2) : channels = [] := by
  rw [h.arraysOf.1, Except.ok.injEq, Option.some.injEq] at hreg
  subst hreg
  cases channels with
  | nil => rfl
  | cons c cs => simp [ChannelArrays.ofChannels] at hlength

end Edma

namespace Tree

open Edma

variable {tree : Tree} {doc : Document} {owns : Ownership} {i : Nat} {properties : List Property}
  {base size : UInt32} {channels : List Channel}

/-- A controller after one range, which may be a range of another one. -/
theorem Holds.reconcileRange_controller {range : ChannelRange} (h : Holds maskName tree doc)
    (hproperties : doc.properties? i = some properties)
    (hcontroller : RegisterController properties base size channels)
    (hown : doc.find? range.nodePath = some i → range.channel? base size = none) :
    ∃ doc' properties',
      Holds maskName (Fixup.result (Edma.reconcileRange owns range) tree).2 doc' ∧
      (∀ path, doc'.find? path = doc.find? path) ∧ doc'.properties? i = some properties' ∧
      RegisterController properties' base size
        (if doc.find? range.nodePath = some i then kept owns range channels else channels) := by
  obtain ⟨doc', -, hholds, rfl |
    ⟨rfl, hrefused | ⟨-, j, found, registers, hfind, hfound, hreg, hlength⟩⟩⟩ :=
    @Holds.reconcileRange tree doc owns h range true
  · by_cases hhere : doc.find? range.nodePath = some i
    · refine ⟨_, settle owns range properties, hholds, Document.find?_settled range doc, ?_, ?_⟩
      · rw [Document.properties?_settled, if_pos hhere, hproperties]
        rfl
      · rw [if_pos hhere]
        exact hcontroller.settle owns (hown hhere)
    · refine ⟨_, properties, hholds, Document.find?_settled range doc, ?_, ?_⟩
      · rw [Document.properties?_settled, if_neg hhere, hproperties]
      · rw [if_neg hhere]
        exact hcontroller
  · cases hrefused
  · -- the write was kept from a controller with a mask: another one, or this one without channels
    refine ⟨doc', properties, hholds, fun _ => rfl, hproperties, ?_⟩
    by_cases hhere : doc'.find? range.nodePath = some i
    · rw [hfind, Option.some.injEq] at hhere
      subst hhere
      rw [hproperties, Option.some.injEq] at hfound
      subst hfound
      obtain rfl := hcontroller.eq_nil hreg hlength
      rw [if_pos hfind]
      simpa [kept] using hcontroller
    · rw [if_neg hhere]
      exact hcontroller

/-- A controller after a channel map: the ranges whose path leads to it take their channels out, one
after the other. -/
theorem Holds.reconcile_controller {map : List ChannelRange} (h : Holds maskName tree doc)
    (hproperties : doc.properties? i = some properties)
    (hcontroller : RegisterController properties base size channels)
    (hown : ∀ r ∈ map, doc.find? r.nodePath = some i → r.channel? base size = none) :
    ∃ doc' properties', Holds maskName (Fixup.result (Edma.reconcile owns map) tree).2 doc' ∧
      (∀ path, doc'.find? path = doc.find? path) ∧ doc'.properties? i = some properties' ∧
      RegisterController properties' base size
        ((map.filter fun r => doc.find? r.nodePath = some i).foldl
          (fun channels r => kept owns r channels) channels) := by
  induction map generalizing tree doc properties channels with
  | nil => exact ⟨doc, properties, h, fun _ => rfl, hproperties, hcontroller⟩
  | cons range rest ih =>
    obtain ⟨doc₁, properties₁, hholds₁, hfind₁, hproperties₁, hcontroller₁⟩ :=
      @Holds.reconcileRange_controller tree doc owns i properties base size channels range h
        hproperties hcontroller (hown range List.mem_cons_self)
    have hown₁ : ∀ r ∈ rest, doc₁.find? r.nodePath = some i → r.channel? base size = none := by
      intro r hr hfind
      rw [hfind₁] at hfind
      exact hown r (List.mem_cons_of_mem _ hr) hfind
    obtain ⟨doc₂, properties₂, hholds₂, hfind₂, hproperties₂, hcontroller₂⟩ :=
      ih hholds₁ hproperties₁ hcontroller₁ hown₁
    rw [result_reconcile_cons]
    refine ⟨doc₂, properties₂, hholds₂, fun path => (hfind₂ path).trans (hfind₁ path),
      hproperties₂, ?_⟩
    simp only [hfind₁] at hcontroller₂
    by_cases hhere : doc.find? range.nodePath = some i
    · rw [if_pos hhere] at hcontroller₂
      rw [List.filter_cons_of_pos (by simpa using hhere)]
      exact hcontroller₂
    · rw [if_neg hhere] at hcontroller₂
      rw [List.filter_cons_of_neg (by simpa using hhere)]
      exact hcontroller₂

/-- **The arrays stay in step.** After any channel map, the properties of a controller with a
register range per channel describe the controller's own registers and some of its channels: the
same ones in all arrays, in their old order, and as many as `dma-channels` says. -/
theorem exists_sublist_reconcile {map : List ChannelRange} {path : Bytes} (hdoc : tree.Stores doc)
    (hsize : tree.totalSize < 2 ^ 32) (hfind : doc.find? path = some i)
    (hproperties : doc.properties? i = some properties)
    (hcontroller : RegisterController properties base size channels)
    (hown : ∀ r ∈ map, doc.find? r.nodePath = some i → r.channel? base size = none) :
    ∃ ref left, (Fixup.result (reconcile owns map) tree).2.resolve path = .ok (some ref) ∧
      left.Sublist channels ∧
      left = (map.filter fun r => doc.find? r.nodePath = some i).foldl
        (fun channels r => kept owns r channels) channels ∧
      ∀ w ∈ (ChannelArrays.ofChannels base size left).properties,
        (Fixup.result (reconcile owns map) tree).2.value ref w.1 = .ok (some w.2) := by
  have hholds : Holds maskName tree doc := .ofStores hdoc hsize (by decide +kernel)
  obtain ⟨doc', properties', hholds', hfind', hproperties', hcontroller'⟩ :=
    @Holds.reconcile_controller tree doc owns i properties base size channels map hholds hproperties
      hcontroller hown
  rw [← hfind'] at hfind
  obtain ⟨ref, _, _, _, _, _, hresolve, href, -⟩ := hholds'.stores.exists_of_find? hfind
  refine ⟨ref, _, hresolve, foldl_kept_sublist owns _ channels, rfl, ?_⟩
  intro w hw
  rw [hholds'.stores.value href hproperties', hcontroller'.values w hw]

/-- The audio DMA controller in a tree that may not grow loses its second and its sixth channel;
the sixth one belongs to another range of the map than the others. -/
theorem exists_sublist_audioRegisters :
    ∃ ref, (Fixup.result (reconcile (ownsAllBut [290, 323]) Soc.imx8qm.channelMap)
        (audioRegisters.withMaxSize audioRegisters.totalSize)).2.resolve audioRange.nodePath =
          .ok (some ref) ∧
      [audioChannel 0, audioChannel 2, audioChannel 3, audioChannel 4].Sublist audioChannels ∧
      ∀ w ∈ fourChannels.properties,
        (Fixup.result (reconcile (ownsAllBut [290, 323]) Soc.imx8qm.channelMap)
          (audioRegisters.withMaxSize audioRegisters.totalSize)).2.value ref w.1 =
            .ok (some w.2) := by
  have hsize : (audioRegisters.withMaxSize audioRegisters.totalSize).totalSize < 2 ^ 32 := by
    decide +kernel
  have hown : ∀ r ∈ Soc.imx8qm.channelMap,
      (audioDocument audioRegisterProperties).find? r.nodePath = some 2 →
        r.channel? 0x591f0000 0x10000 = none := by
    have hnone : ∀ r ∈ Soc.imx8qm.channelMap, r.channel? 0x591f0000 0x10000 = none := by
      decide +kernel
    intro r hr _
    exact hnone r hr
  obtain ⟨ref, left, hresolve, hsublist, hleft, hvalues⟩ :=
    @exists_sublist_reconcile (audioRegisters.withMaxSize audioRegisters.totalSize) _
      (ownsAllBut [290, 323]) _ _ _ _ _ Soc.imx8qm.channelMap audioRange.nodePath
      stores_audioRegisters hsize (find?_audioDocument _) (properties?_audioDocument _)
      registerController_audioRegisters hown
  have hfour : left = [audioChannel 0, audioChannel 2, audioChannel 3, audioChannel 4] :=
    hleft.trans rfl
  have harrays : ChannelArrays.ofChannels 0x591f0000 0x10000 left = fourChannels := by
    rw [hfour]
    decide +kernel
  rw [harrays] at hvalues
  exact ⟨ref, hresolve, hfour ▸ hsublist, hvalues⟩

end Tree

end BootTree
