import BootTree.Proofs.PowerDomain.Progress

/-!
# BootTree.Proofs.PowerDomain.Visiting

One node in the fixup of power domains. A visit goes on to a later node and would stop at none in
between, or it ends in an error; what is malformed at the node is logged.

* `PowerDomain.Policy.Warned`, `PowerDomain.Policy.Told`: what the log says of a node.
* `PowerDomain.Progress.check`: a usable node at which the walk stops.
* `PowerDomain.Visited`, `PowerDomain.Progress.visit`: what a visit comes to, under either policy.
-/

namespace BootTree

namespace PowerDomain

/-! ## What the log says -/

/-- If looking for the resources of a usable node meets none that is not owned, then what is malformed
there is among the records of these events. -/
def Policy.Warned (policy : Policy) (owns : Ownership) (doc : Document) (i : Nat)
    (events : List Event) : Prop :=
  doc.isEnabled i = true → (∀ resource, policy.Asks doc i resource → owns resource = true) →
    ∀ message, policy.Warns doc i message →
      (⟨.warn, logTarget, message⟩ : Log.Record) ∈ Event.records events

theorem Policy.Warned.mono {policy : Policy} {owns : Ownership} {doc : Document} {i : Nat}
    {events events' : List Event} (h : policy.Warned owns doc i events) (hsub : events ⊆ events') :
    policy.Warned owns doc i events' := by
  intro henabled howned message hwarns
  exact Event.mem_records.2 (hsub (Event.mem_records.1 (h henabled howned message hwarns)))

/-- The record of a visit. -/
def visitRecord (doc : Document) (i : Nat) (depth : Int) : Log.Record :=
  ⟨.trace, logTarget, s!"node {doc.nameText i}, depth {depth}"⟩

/-- What the log says of a node at which the walk stops. -/
structure Policy.Told (policy : Policy) (owns : Ownership) (doc : Document) (i : Nat)
    (events : List Event) : Prop where
  visit : ∃ depth, doc.depth? i = some depth ∧ visitRecord doc i depth ∈ Event.records events
  warned : policy.Warned owns doc i events

theorem Policy.Told.mono {policy : Policy} {owns : Ownership} {doc : Document} {i : Nat}
    {events events' : List Event} (h : policy.Told owns doc i events) (hsub : events ⊆ events') :
    policy.Told owns doc i events' := by
  obtain ⟨depth, hdepth, hmem⟩ := h.visit
  exact ⟨⟨depth, hdepth, Event.mem_records.2 (hsub (Event.mem_records.1 hmem))⟩, h.warned.mono hsub⟩

/-! ## One node -/

theorem result_disableUnowned {ref : NodeRef} {tree tree' : Tree} {outcome : Except TreeError Unit}
    (resource : Resource) (h : (disable ref).result tree = (outcome, tree')) :
    Fixup.result (disableUnowned ref resource) tree = ((), tree') := by
  unfold Attempt.result at h
  rw [disableUnowned, Fixup.result_bind, h]
  cases outcome <;> rfl

namespace Progress

variable {policy : Policy} {owns : Ownership} {doc : Document} {original tree : Tree}
  {nodes : List Nat} {i : Nat} {ref : NodeRef} {d : Int}

/-- A usable node at which the walk stops is disabled if it is to be, or the fixup fails there. -/
theorem check (h : Progress policy owns doc original tree nodes i)
    (href : tree.nodes[i]? = some ref) (henabled : doc.isEnabled i = true)
    (hstops : policy.StopsAt doc i) :
    ∃ outcome tree' nodes', (check owns policy.demand ref).result tree = (outcome, tree') ∧
      tree'.nodes[i]? = some ref ∧
      (outcome = .ok () ∧ Progress policy owns doc original tree' nodes' (i + 1) ∨
        (∃ e, outcome = .error e) ∧ policy.Fails owns doc i ∧
          Progress policy owns doc original tree' nodes' i) := by
  have hsize : i < doc.forest.size := by
    rw [← h.sameButStatus.size, ← h.holds.stores.length_nodes]
    exact (List.getElem?_eq_some_iff.1 href).1
  unfold PowerDomain.check
  rw [Attempt.result_bind_of_ok (Attempt.result_get tree)]
  dsimp only
  have hcases := h.holds.stores.firstUnowned_cases href policy owns
  simp only [h.sameButStatus.asks, h.sameButStatus.failure?] at hcases
  rcases hcases with
    ⟨resource, hfound, hasks, hunowned⟩ | ⟨howned, ⟨hfound, hnone⟩ | ⟨e, hfound, hfails⟩⟩
  · have hrestricts : policy.Restricts owns doc i :=
      ⟨h.pos, hsize, henabled, hstops, resource, hasks, hunowned⟩
    obtain ⟨outcome, tree', nodes', hresult, hprogress, href'⟩ := h.disable href hrestricts
    refine ⟨.ok (), tree', nodes', ?_, href', .inl ⟨rfl, hprogress⟩⟩
    rw [Attempt.result_bind_of_ok (a := some resource) (by rw [Attempt.result_reported, hfound])]
    exact Attempt.result_lift (result_disableUnowned resource hresult)
  · -- all that was asked for is owned, so the node is not one to be disabled
    have hnot : ¬ policy.Restricts owns doc i := by
      intro hrestricts
      obtain ⟨resource, hasks, hunowned⟩ := hrestricts.asks
      rw [howned resource hasks] at hunowned
      cases hunowned
    have hunfailed : ¬ policy.Fails owns doc i := by
      intro hfails
      obtain ⟨e, he⟩ := hfails.failure
      rw [hnone] at he
      cases he
    refine ⟨.ok (), tree, nodes, ?_, href, .inl ⟨rfl, h.succ hnot hunfailed⟩⟩
    rw [Attempt.result_bind_of_ok (a := none) (by rw [Attempt.result_reported, hfound])]
    rfl
  · refine ⟨.error e, tree, nodes, ?_, href,
      .inr ⟨⟨e, rfl⟩, ⟨henabled, hstops, howned, e, hfails⟩, h⟩⟩
    rw [Attempt.result_bind_of_error (e := e) (by rw [Attempt.result_reported, hfound])]

/-- Checking a node begins with carrying out the plan for it. -/
theorem events_check (ref : NodeRef) (tree : Tree) :
    (firstUnowned owns (policy.demand tree ref)).events <+:
      (PowerDomain.check owns policy.demand ref).events tree := by
  unfold PowerDomain.check
  rw [Attempt.events_bind_of_ok (Attempt.result_get tree), Attempt.events_get, List.nil_append]
  have hplan := Attempt.events_reported (firstUnowned owns (policy.demand tree ref)) tree
  rw [← hplan]
  exact Attempt.events_bind_prefix _ tree _

/-- Checking a node tells what is malformed there. -/
theorem warned (h : Progress policy owns doc original tree nodes i)
    (href : tree.nodes[i]? = some ref) :
    policy.Warned owns doc i ((PowerDomain.check owns policy.demand ref).events tree) := by
  intro _ howned message hwarns
  obtain ⟨hnote, hfailure⟩ := h.holds.stores.note_mem_demand href (h.sameButStatus.warns hwarns)
  have hasked : ∀ resource ∈ (policy.demand tree ref).requests, owns resource = true := by
    intro resource hmem
    rw [h.holds.stores.mem_requests_demand href, h.sameButStatus.asks] at hmem
    exact howned resource hmem
  have hlogged := mem_records_firstUnowned hasked hfailure hnote
  rw [Event.mem_records] at hlogged ⊢
  exact (events_check ref tree).subset hlogged

/-! ## One visit -/

/-- What a visit of node `i` comes to: the walk goes on to a later node and would stop at none in
between, or the fixup fails. What is malformed at the node is logged. -/
def Visited (policy : Policy) (owns : Ownership) (doc : Document) (original tree : Tree) (i : Nat)
    (visit : Attempt TreeError (Option (NodeRef × Int))) : Prop :=
  ∃ outcome tree' nodes', visit.result tree = (outcome, tree') ∧
    ((∃ j, i < j ∧ outcome = .ok (tree'.visits doc)[j]? ∧
        Progress policy owns doc original tree' nodes' j ∧
        (j < doc.forest.size → policy.Arrives doc j) ∧
        ∀ k, i < k → k < j → ¬ policy.StopsAt doc k) ∨
      (∃ e, outcome = .error e) ∧ policy.Fails owns doc i ∧
        Progress policy owns doc original tree' nodes' i) ∧
    (policy.StopsAt doc i → policy.Warned owns doc i (visit.events tree))

/-- A first step that leaves the tree as it is. -/
theorem Visited.bind {α : Type} {x : Attempt TreeError α} {a : α}
    {f : α → Attempt TreeError (Option (NodeRef × Int))} (hx : x.result tree = (.ok a, tree))
    (h : Visited policy owns doc original tree i (f a)) :
    Visited policy owns doc original tree i (x >>= f) := by
  obtain ⟨outcome, tree', nodes', hresult, hcases, hwarned⟩ := h
  refine ⟨outcome, tree', nodes', (Attempt.result_bind_of_ok hx f).trans hresult, hcases, ?_⟩
  intro hstops
  rw [Attempt.events_bind_of_ok hx]
  exact (hwarned hstops).mono (List.subset_append_right _ _)

/-- Nothing is to be done at the node. -/
theorem visited_next (h : Progress policy owns doc original tree nodes i)
    (hvisit : (tree.visits doc)[i]? = some (ref, d)) (hnot : ¬ policy.Restricts owns doc i)
    (hfails : ¬ policy.Fails owns doc i) (harrives : policy.Arrives doc (i + 1))
    (hquiet : doc.isEnabled i = true → ∀ message, ¬ policy.Warns doc i message) :
    Visited policy owns doc original tree i (Attempt.ask (·.next ref d)) := by
  refine ⟨_, tree, nodes, by rw [Attempt.result_ask, h.next hvisit],
    .inl ⟨i + 1, Nat.lt_succ_self i, rfl, h.succ hnot hfails, fun _ => harrives, ?_⟩, ?_⟩
  · intro k hik hki
    omega
  · intro _ henabled _ message hwarns
    exact absurd hwarns (hquiet henabled message)

/-- The node is checked, and the walk goes on from where the node still is. -/
theorem visited_check (h : Progress policy owns doc original tree nodes i)
    (hvisit : (tree.visits doc)[i]? = some (ref, d)) (henabled : doc.isEnabled i = true)
    (hstops : policy.StopsAt doc i) (harrives : policy.Arrives doc (i + 1)) :
    Visited policy owns doc original tree i (do
      PowerDomain.check owns policy.demand ref
      Attempt.ask (·.next ref d)) := by
  obtain ⟨href, hdepth⟩ := Tree.visits_getElem?_eq_some_iff.1 hvisit
  have hwarned := (h.warned href).mono
    (Attempt.events_bind_prefix _ tree fun _ => Attempt.ask (·.next ref d)).subset
  obtain ⟨outcome, tree', nodes', hresult, href',
    ⟨rfl, hprogress⟩ | ⟨⟨e, rfl⟩, hfails, hprogress⟩⟩ := h.check href henabled hstops
  · have hvisit' := Tree.visits_getElem?_eq_some_iff.2 ⟨href', hdepth⟩
    refine ⟨_, tree', nodes', ?_,
      .inl ⟨i + 1, Nat.lt_succ_self i, rfl, hprogress, fun _ => harrives, ?_⟩, fun _ => hwarned⟩
    · rw [Attempt.result_bind_of_ok hresult, Attempt.result_ask, hprogress.next hvisit']
    · intro k hik hki
      omega
  · exact ⟨.error e, tree', nodes', Attempt.result_bind_of_error hresult _,
      .inr ⟨⟨e, rfl⟩, hfails, hprogress⟩, fun _ => hwarned⟩

/-- Behind the top of a domain tree the walk goes on at the next node directly below the root; the
nodes in between are passed over. -/
theorem visited_domainTop (h : Progress .legacy owns doc original tree nodes i)
    (hvisit : (tree.visits doc)[i]? = some (ref, d)) (htop : doc.DomainTop i) :
    Visited .legacy owns doc original tree i
      (Attempt.ask fun tree => (tree.walkFrom ref d).find? fun _ d => .ok (decide (d ≤ 1))) := by
  have hvisit' := hvisit
  rw [← h.visits] at hvisit'
  obtain ⟨j, hij, hfind, hpassed, hfound⟩ := h.holds.stores.find?_walkFrom hvisit' 1
  simp only [h.sameButStatus.depth?, h.sameButStatus.size, h.visits] at hfind hpassed hfound
  -- the nodes in between are passed over, whether they belong to the domain tree or not
  have hover : ∀ k, i ≤ k → k < j → doc.PassedOver k := by
    intro k hik hkj
    refine ⟨i, htop, hik, ?_⟩
    intro m him hmk depth hdepth
    have := hpassed m him (Nat.lt_of_le_of_lt hmk hkj) depth hdepth
    omega
  refine ⟨_, tree, nodes, by rw [Attempt.result_ask, hfind],
    .inl ⟨j, hij, rfl, h.skip (Nat.le_of_lt hij) ?_, ?_, ?_⟩, ?_⟩
  · intro k hik hkj
    exact ⟨fun hrestricts => hrestricts.stopsAt (hover k hik hkj),
      fun hfails => hfails.stopsAt (hover k hik hkj)⟩
  · intro hsize top htopj htopTop
    obtain ⟨depth, hdepth, hone⟩ := hfound hsize
    exact ⟨j, depth, htopj, Nat.le_refl j, hdepth, by omega⟩
  · intro k hik hkj hstops
    exact hstops (hover k (Nat.le_of_lt hik) hkj)
  · intro hstops
    exact absurd (hover i (Nat.le_refl i) hij) hstops

theorem result_logVisit (ref : NodeRef) (d : Int) (tree : Tree) :
    Attempt.result (liftM (logVisit ref d) : Attempt TreeError Unit) tree = (.ok (), tree) :=
  Attempt.result_lift rfl

theorem visitLegacy (h : Progress .legacy owns doc original tree nodes i)
    (hvisit : (tree.visits doc)[i]? = some (ref, d)) (harrives : doc.Clear i) :
    Visited .legacy owns doc original tree i (visitLegacy owns ref d) := by
  obtain ⟨href, -⟩ := Tree.visits_getElem?_eq_some_iff.1 hvisit
  apply Visited.bind (result_logVisit ref d tree)
  apply Visited.bind (Attempt.result_get tree)
  rw [h.isEnabled href, h.holds.stores.isCompatible href, h.sameButStatus.isCompatible]
  by_cases henabled : doc.isEnabled i = true
  · rw [if_neg (by simp [henabled])]
    by_cases hcompatible : doc.isCompatible i legacyCompatible = true
    · rw [if_pos hcompatible]
      exact h.visited_domainTop hvisit ⟨h.pos, henabled, hcompatible⟩
    · have hnotTop : ¬ doc.DomainTop i := by
        intro htop
        exact hcompatible htop.2.2
      rw [if_neg hcompatible]
      exact h.visited_check hvisit henabled (harrives.not_passedOver hnotTop)
        (harrives.succ hnotTop)
  · have hnotTop : ¬ doc.DomainTop i := by
      intro htop
      exact henabled htop.2.1
    have hnot : ¬ Policy.legacy.Restricts owns doc i := by
      intro hrestricts
      exact henabled hrestricts.isEnabled
    have hunfailed : ¬ Policy.legacy.Fails owns doc i := by
      intro hfails
      exact henabled hfails.isEnabled
    rw [if_pos (by simpa using henabled)]
    apply Visited.bind (Attempt.result_lift (Fixup.result_log _ _ _ tree))
    exact h.visited_next hvisit hnot hunfailed (harrives.succ hnotTop)
      fun henabled' => absurd henabled' henabled

theorem visitGeneric (h : Progress .generic owns doc original tree nodes i)
    (hvisit : (tree.visits doc)[i]? = some (ref, d)) :
    Visited .generic owns doc original tree i (visitGeneric owns ref d) := by
  obtain ⟨href, -⟩ := Tree.visits_getElem?_eq_some_iff.1 hvisit
  have hlist : Attempt.result (Attempt.ask (·.value ref listProperty)) tree =
      (.ok (doc.value? i listProperty), tree) := by
    rw [Attempt.result_ask, h.holds.stores.value_eq href,
      h.sameButStatus.value? i _ (by simp [listProperty])]
  apply Visited.bind (result_logVisit ref d tree)
  apply Visited.bind hlist
  apply Visited.bind (Attempt.result_get tree)
  rw [h.isEnabled href]
  by_cases hcheck : ((doc.value? i listProperty).isSome && doc.isEnabled i) = true
  · rw [if_pos hcheck]
    rw [Bool.and_eq_true] at hcheck
    exact h.visited_check hvisit hcheck.2 trivial trivial
  · -- a node without a list asks for nothing
    have hnone : doc.isEnabled i = true → ¬ (doc.value? i listProperty).isSome := by
      intro henabled hsome
      rw [hsome, henabled] at hcheck
      exact hcheck rfl
    have hnot : ¬ Policy.generic.Restricts owns doc i := by
      intro hrestricts
      obtain ⟨resource, ⟨k, ⟨node, args, hentry⟩, -⟩, -⟩ := hrestricts.asks
      exact hnone hrestricts.isEnabled hentry.value?_isSome
    rw [if_neg hcheck]
    exact h.visited_next hvisit hnot (Policy.not_fails_generic owns doc i) trivial
      fun henabled message hwarns => hnone henabled hwarns.value?_isSome

theorem visit (h : Progress policy owns doc original tree nodes i)
    (hvisit : (tree.visits doc)[i]? = some (ref, d)) (harrives : policy.Arrives doc i) :
    Visited policy owns doc original tree i (policy.visit owns ref d) := by
  cases policy with
  | legacy => exact h.visitLegacy hvisit harrives
  | generic => exact h.visitGeneric hvisit

/-- The log names the node that is visited. -/
theorem told (h : Progress policy owns doc original tree nodes i)
    (hvisit : (tree.visits doc)[i]? = some (ref, d))
    (hwarned : policy.Warned owns doc i ((policy.visit owns ref d).events tree)) :
    policy.Told owns doc i ((policy.visit owns ref d).events tree) := by
  obtain ⟨href, depth, hdepth, rfl⟩ := Tree.visits_getElem?_eq_some_iff.1 hvisit
  refine ⟨⟨depth, hdepth, ?_⟩, hwarned⟩
  have hname : tree.nameText ref = doc.nameText i := by
    rw [h.holds.stores.nameText href, h.sameButStatus.nameText]
  have hlogged : visitRecord doc i depth ∈
      Event.records (Attempt.events (liftM (logVisit ref depth) : Attempt TreeError Unit) tree) := by
    rw [visitRecord, ← hname]
    exact List.mem_cons_self
  rw [Event.mem_records] at hlogged ⊢
  cases policy with
  | legacy => exact (Attempt.events_bind_prefix _ tree _).subset hlogged
  | generic => exact (Attempt.events_bind_prefix _ tree _).subset hlogged

end Progress

end PowerDomain

end BootTree
