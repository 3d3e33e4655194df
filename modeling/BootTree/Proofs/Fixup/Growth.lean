import BootTree.Fixup.Growth
import BootTree.Proofs.Tree.SetValue

/-!
# BootTree.Proofs.Fixup.Growth

What a fixup leaves behind, and writes that may enlarge the tree. A write that lacks space is made
again after the tree has grown, and a tree without a limit always grows, so a write that takes no more
than one growth succeeds.

* `Fixup.result`, `Attempt.result`: the answer of a run and the tree after it, step by step;
  `Attempt.events`: what it reported.
* `Tree.StoredAt.result_setGrowing`: the tree after a property was set, or could not be.
* `Tree.Holds.replace`, `Tree.Holds.write`: shorter values, and short values under a name that the
  tree has room for.
-/

namespace BootTree

open Blob

theorem Event.queries_append (events events' : List Event) :
    queries (events ++ events') = queries events ++ queries events' := List.filterMap_append

/-! ## Results of runs -/

namespace Fixup

variable {α β : Type}

def result (x : Fixup α) (tree : Tree) : α × Tree := (x tree).value

@[simp] theorem result_pure (a : α) (tree : Tree) : result (pure a) tree = (a, tree) := rfl

@[simp] theorem result_bind (x : Fixup α) (f : α → Fixup β) (tree : Tree) :
    result (x >>= f) tree = result (f (result x tree).1) (result x tree).2 := rfl

@[simp] theorem result_ask (query : Tree → α) (tree : Tree) :
    result (ask query) tree = (query tree, tree) := rfl

@[simp] theorem result_get (tree : Tree) : result (get : Fixup Tree) tree = (tree, tree) := rfl

@[simp] theorem result_reported (x : Reported α) (tree : Tree) :
    result (liftM x : Fixup α) tree = (x.value, tree) := rfl

@[simp] theorem result_tell (events : List Event) (tree : Tree) :
    result (tell events) tree = ((), tree) := rfl

@[simp] theorem result_log (level : Log.Level) (target message : String) (tree : Tree) :
    result (log level target message) tree = ((), tree) := rfl

theorem result_edit_of_ok {e : Edit α} {a : α} {tree tree' : Tree} (h : e tree = .ok a tree') :
    result (edit e) tree = (.ok a, tree') := by
  simp [result, edit, h]

theorem result_edit_of_error {e : Edit α} {err : TreeError} {tree tree' : Tree}
    (h : e tree = .error err tree') : result (edit e) tree = (.error err, tree') := by
  simp [result, edit, h]

theorem events_bind (x : Fixup α) (f : α → Fixup β) (tree : Tree) :
    ((x >>= f) tree).events =
      (x tree).events ++ (f (result x tree).1 (result x tree).2).events := rfl

theorem events_reported (x : Reported α) (tree : Tree) :
    ((liftM x : Fixup α) tree).events = x.events := List.append_nil _

@[simp] theorem result_forM_cons (f : α → Fixup Unit) (a : α) (l : List α) (tree : Tree) :
    result ((a :: l).forM f) tree = result (l.forM f) (result (f a) tree).2 := rfl

end Fixup

namespace Attempt

variable {ε α β : Type}

def result (x : Attempt ε α) (tree : Tree) : Except ε α × Tree := Fixup.result x.run tree

@[simp] theorem result_pure (a : α) (tree : Tree) :
    result (pure a : Attempt ε α) tree = (.ok a, tree) := rfl

@[simp] theorem result_ask (query : Tree → Except TreeError α) (tree : Tree) :
    result (ask query) tree = (query tree, tree) := rfl

@[simp] theorem result_get (tree : Tree) :
    result (get : Attempt ε Tree) tree = (.ok tree, tree) := rfl

@[simp] theorem result_reported (x : Reported (Except ε α)) (tree : Tree) :
    result (ExceptT.mk (liftM x : Fixup (Except ε α))) tree = (x.value, tree) := rfl

theorem result_lift {x : Fixup α} {tree tree' : Tree} {a : α}
    (h : Fixup.result x tree = (a, tree')) :
    result (liftM x : Attempt ε α) tree = (.ok a, tree') := by
  change (Except.ok (Fixup.result x tree).1, (Fixup.result x tree).2) = _
  rw [h]

theorem result_bind_of_ok {x : Attempt ε α} {tree tree' : Tree} {a : α}
    (h : result x tree = (.ok a, tree')) (f : α → Attempt ε β) :
    result (x >>= f) tree = result (f a) tree' := by
  change Fixup.result (x.run >>= ExceptT.bindCont f) tree = _
  rw [Fixup.result_bind]
  unfold result at h
  rw [h]
  rfl

theorem result_bind_of_error {x : Attempt ε α} {tree tree' : Tree} {e : ε}
    (h : result x tree = (.error e, tree')) (f : α → Attempt ε β) :
    result (x >>= f) tree = (.error e, tree') := by
  change Fixup.result (x.run >>= ExceptT.bindCont f) tree = _
  rw [Fixup.result_bind]
  unfold result at h
  rw [h]
  rfl

/-- A step that is only taken under a condition. -/
theorem result_optional {c : Prop} [Decidable c] {x : Attempt ε Unit} {tree tree' : Tree}
    (htaken : c → result x tree = (.ok (), tree')) (hskipped : ¬ c → tree' = tree)
    (rest : Unit → Attempt ε α) :
    result (if c then x >>= rest else rest ()) tree = result (rest ()) tree' := by
  by_cases h : c
  · rw [if_pos h, result_bind_of_ok (htaken h)]
  · rw [if_neg h, hskipped h]

theorem result_mapError_of_ok {ε' : Type} {x : Attempt ε α} {tree tree' : Tree} {a : α}
    (h : result x tree = (.ok a, tree')) (f : ε → ε') :
    result (mapError f x) tree = (.ok a, tree') := by
  change ((result x tree).1.mapError f, (result x tree).2) = _
  rw [h]
  rfl

theorem result_mapError_of_error {ε' : Type} {x : Attempt ε α} {tree tree' : Tree} {e : ε}
    (h : result x tree = (.error e, tree')) (f : ε → ε') :
    result (mapError f x) tree = (.error (f e), tree') := by
  change ((result x tree).1.mapError f, (result x tree).2) = _
  rw [h]
  rfl

/-! ### Events of runs -/

def events (x : Attempt ε α) (tree : Tree) : List Event := (x.run tree).events

@[simp] theorem events_get (tree : Tree) : events (get : Attempt ε Tree) tree = [] := rfl

@[simp] theorem events_reported (x : Reported (Except ε α)) (tree : Tree) :
    events (ExceptT.mk (liftM x : Fixup (Except ε α))) tree = x.events := List.append_nil _

theorem events_lift (x : Fixup α) (tree : Tree) :
    events (liftM x : Attempt ε α) tree = (x tree).events := List.append_nil _

theorem events_bind_of_ok {x : Attempt ε α} {tree tree' : Tree} {a : α}
    (h : result x tree = (.ok a, tree')) (f : α → Attempt ε β) :
    events (x >>= f) tree = events x tree ++ events (f a) tree' := by
  change (x.run tree).events ++ (ExceptT.bindCont f (result x tree).1 (result x tree).2).events = _
  rw [h]
  rfl

theorem events_bind_of_error {x : Attempt ε α} {tree tree' : Tree} {e : ε}
    (h : result x tree = (.error e, tree')) (f : α → Attempt ε β) :
    events (x >>= f) tree = events x tree := by
  change (x.run tree).events ++ (ExceptT.bindCont f (result x tree).1 (result x tree).2).events = _
  rw [h]
  exact List.append_nil _

theorem events_bind_prefix (x : Attempt ε α) (tree : Tree) (f : α → Attempt ε β) :
    events x tree <+: events (x >>= f) tree := List.prefix_append _ _

end Attempt

/-! ## Writes with growth -/

section Growth

variable {α : Type} {e : Edit α} {tree tree' : Tree} {a : α}

theorem result_withGrowth_of_ok (h : e tree = .ok a tree') :
    (withGrowth e).result tree = (.ok a, tree') := by
  have hedit := Fixup.result_edit_of_ok h
  unfold withGrowth Attempt.result
  change Fixup.result (Fixup.edit e >>= _) tree = _
  rw [Fixup.result_bind, hedit]
  rfl

theorem result_withGrowth_of_error {err : TreeError} (hspace : ∀ needed, err ≠ .noSpace needed)
    (h : e tree = .error err tree') : (withGrowth e).result tree = (.error err, tree') := by
  have hedit := Fixup.result_edit_of_error h
  unfold withGrowth Attempt.result
  change Fixup.result (Fixup.edit e >>= _) tree = _
  rw [Fixup.result_bind, hedit]
  dsimp only
  split
  · rename_i needed heq
    cases heq
    exact absurd rfl (hspace needed)
  · rfl

/-- An edit that lacks space has a second try in a tree with more of it. -/
theorem result_withGrowth_of_noSpace {needed : Nat} (h : e tree = .error (.noSpace needed) tree) :
    (withGrowth e).result tree =
      match Tree.grow growIncrement tree with
      | .error err grown => (.error err, grown)
      | .ok () grown => Fixup.result (Fixup.edit e) grown := by
  have hedit := Fixup.result_edit_of_error h
  unfold withGrowth Attempt.result
  change Fixup.result (Fixup.edit e >>= _) tree = _
  rw [Fixup.result_bind, hedit]
  dsimp only
  rw [Fixup.result_bind, Fixup.result_log, Fixup.result_bind]
  cases hgrow : Tree.grow growIncrement tree with
  | ok _ grown => rw [Fixup.result_edit_of_ok hgrow]
  | error err grown => rw [Fixup.result_edit_of_error hgrow]; rfl

end Growth

namespace Tree

variable {tree : Tree} {doc : Document} {i : Nat} {ref : NodeRef} {node : Node}
  {pre body inner post : List Token} {name value : Bytes}

theorem StoredAt.withFree (h : tree.StoredAt doc i ref node pre body inner post) (free : Nat) :
    StoredAt { tree with free := free } doc i ref node pre body inner post :=
  ⟨h.tokens, h.cut, h.offset⟩

theorem Updated.ofFree {tree' : Tree} {p : List Property → List Property} {free : Nat}
    (h : Updated { tree with free := free } tree' doc i ref name p) :
    Updated tree tree' doc i ref name p := by
  refine ⟨h.stores, h.shifted, h.bootCpu, h.reservations, h.maxSize, ?_⟩
  rcases h.strings with hstrings | hstrings
  · exact .inl hstrings
  · right
    rw [hstrings]
    unfold withName
    dsimp only
    split <;> rfl

theorem length_lt_of_propertyCost_le {n : Nat} (h : propertyCost value + n ≤ growIncrement) :
    value.length < 2 ^ 32 := by
  have := Bytes.le_alignUp value.length
  simp only [propertyCost, growIncrement] at h
  omega

/-- A property is set, or nothing but the free space changes. It is set if there is the space for it,
and in a tree without a limit also if one growth gives that space. -/
theorem StoredAt.result_setGrowing (h : tree.StoredAt doc i ref node pre body inner post)
    (hname : 0 ∉ name) (hvalue : value.length < 2 ^ 32) (hoffset : tree.nameOffset name < 2 ^ 32) :
    (∃ tree', (setGrowing ref name value).result tree = (.ok (), tree') ∧
      Updated tree tree' doc i ref name (withValue name value)) ∨
    (tree.free < tree.setCost ref name value ∧
      (tree.setCost ref name value ≤ growIncrement → tree.maxSize ≠ none) ∧
      ∃ e free, (setGrowing ref name value).result tree = (.error e, { tree with free := free })) := by
  by_cases hfree : tree.setCost ref name value ≤ tree.free
  · left
    obtain ⟨tree', hset, hupdated⟩ := h.setValue_of_le hname hvalue hoffset hfree
    exact ⟨tree', result_withGrowth_of_ok hset, hupdated⟩
  have hlt := Nat.lt_of_not_le hfree
  have hagain := h.withFree (tree.free + growIncrement)
  rw [setGrowing, result_withGrowth_of_noSpace (h.setValue_of_lt hlt)]
  by_cases hgrow : tree.MayGrow growIncrement
  swap
  · obtain ⟨limit, hlimit, -, hfails⟩ := grow_of_not_mayGrow hgrow
    right
    rw [hfails]
    exact ⟨hlt, by simp [hlimit], _, tree.free, rfl⟩
  rw [grow_of_mayGrow hgrow]
  dsimp only
  by_cases hcost : tree.setCost ref name value ≤ tree.free + growIncrement
  · left
    obtain ⟨tree', hset, hupdated⟩ := hagain.setValue_of_le hname hvalue hoffset hcost
    exact ⟨tree', Fixup.result_edit_of_ok hset, hupdated.ofFree⟩
  · right
    refine ⟨hlt, ?_, _, _,
      Fixup.result_edit_of_error (hagain.setValue_of_lt (Nat.lt_of_not_le hcost))⟩
    intro hle
    exact absurd (Nat.le_trans hle (Nat.le_add_left _ _)) hcost

/-! ## Trees with room for a name -/

/-- A tree that stores a document and has room for one more property name. -/
structure Holds (fresh : Bytes) (tree : Tree) (doc : Document) : Prop where
  stores : tree.Stores doc
  room : tree.strings.length + tree.nameCost fresh < 2 ^ 32

/-- One without a limit, which can also take every short value under that name. -/
structure Growable (fresh : Bytes) (tree : Tree) (doc : Document) : Prop where
  stores : tree.Stores doc
  unlimited : tree.maxSize = none
  room : tree.strings.length + tree.nameCost fresh < 2 ^ 32

/-- What writing properties leaves alone. -/
structure SameFrame (tree tree' : Tree) : Prop where
  bootCpu : tree'.bootCpu = tree.bootCpu
  reservations : tree'.reservations = tree.reservations
  maxSize : tree'.maxSize = tree.maxSize

/-- A tree after writes that take `doc` to `doc'`. A limit of its size may have kept them from being
made. -/
structure Written (fresh : Bytes) (tree tree' : Tree) (doc doc' : Document) : Prop where
  frame : tree.SameFrame tree'
  holds : Holds fresh tree' doc' ∨ Holds fresh tree' doc ∧ tree.maxSize ≠ none

namespace SameFrame

theorem refl (tree : Tree) : tree.SameFrame tree := ⟨rfl, rfl, rfl⟩

theorem trans {tree₁ tree₂ tree₃ : Tree} (h : tree₁.SameFrame tree₂) (h' : tree₂.SameFrame tree₃) :
    tree₁.SameFrame tree₃ :=
  ⟨h'.bootCpu.trans h.bootCpu, h'.reservations.trans h.reservations, h'.maxSize.trans h.maxSize⟩

end SameFrame

theorem length_strings_withName (tree : Tree) (name : Bytes) :
    (tree.withName name).strings.length + (tree.withName name).nameCost name =
      tree.strings.length + tree.nameCost name := by
  unfold withName nameCost
  by_cases hfound : (Strings.find? tree.strings name).isSome = true
  · rw [if_pos hfound, if_pos hfound]
  · have hthere : name ++ [0] <+: (Strings.append tree.strings name).drop tree.strings.length := by
      rw [Strings.append, List.append_assoc, List.drop_left]
    obtain ⟨offset, hoffset, -⟩ := Strings.find?_le hthere
    rw [if_neg hfound, if_neg hfound]
    dsimp only
    rw [if_pos (by rw [hoffset]; rfl), Strings.append]
    simp only [List.length_append, List.length_singleton]
    omega

theorem StoredAt.setCost_eq_zero (h : tree.StoredAt doc i ref node pre body inner post)
    {old : Bytes} (hold : valueOf? node.properties name = some old)
    (hle : value.length ≤ old.length) : tree.setCost ref name value = 0 := by
  obtain ⟨_, _, _, -, -, hsome⟩ := h.property?_of_valueOf? hold
  rw [setCost, hsome]
  simp only [Located.token, Token.size, propertyCost, Bytes.alignUp, Token.propertyHead]
  omega

theorem StoredAt.length_value_lt (h : tree.StoredAt doc i ref node pre body inner post)
    {old : Bytes} (hold : valueOf? node.properties name = some old) : old.length < 2 ^ 32 := by
  obtain ⟨front, o, behind, hbody, -, -⟩ := h.property?_of_valueOf? hold
  have hmem : .property o old ∈ around pre node.name body inner post := by
    simp [around, hbody]
  exact isStorable_of_tokens? h.tokens _ hmem

namespace Holds

variable {fresh : Bytes}

/-- A tree that is not too large for its header has room for a name that is not longer than the
header. -/
theorem ofStores (h : tree.Stores doc) (hsize : tree.totalSize < 2 ^ 32)
    (hfresh : fresh.length + 1 ≤ headerSize) : Holds fresh tree doc := by
  refine ⟨h, ?_⟩
  have hcost := tree.nameCost_le fresh
  simp only [totalSize, usedSize, stringsOffset, structOffset] at hsize
  omega

theorem growable (h : Holds fresh tree doc) (hunlimited : tree.maxSize = none) :
    Growable fresh tree doc := ⟨h.stores, hunlimited, h.room⟩

theorem nameOffset_lt (h : Holds fresh tree doc) (name : Bytes) :
    tree.nameOffset name < 2 ^ 32 := by
  have := tree.nameOffset_le name
  have := h.room
  omega

theorem updated {tree' : Tree} {p : List Property → List Property} (h : Holds fresh tree doc)
    (hupdated : Updated tree tree' doc i ref name p)
    (hname : name = fresh ∨ (Strings.find? tree.strings name).isSome = true) :
    Holds fresh tree' (doc.alter p id i) := by
  have hstrings : tree'.strings = tree.strings ∨
      tree'.strings = (tree.withName fresh).strings := by
    rcases hupdated.strings with hsame | hwith
    · exact .inl hsame
    · rcases hname with rfl | hfound
      · exact .inr hwith
      · rw [withName, if_pos hfound] at hwith
        exact .inl hwith
  refine ⟨hupdated.stores, ?_⟩
  have hroom := h.room
  rcases hstrings with hsame | hwith
  · unfold nameCost at *
    rw [hsame]
    exact hroom
  · have hlength := length_strings_withName tree fresh
    unfold nameCost at *
    rw [hwith]
    omega

/-- A value that is not longer than the one before is set. -/
theorem replace (h : Holds fresh tree doc) (href : tree.nodes[i]? = some ref)
    {properties : List Property} (hproperties : doc.properties? i = some properties) {old : Bytes}
    (hold : valueOf? properties name = some old) (hle : value.length ≤ old.length) :
    ∃ tree', (setGrowing ref name value).result tree = (.ok (), tree') ∧
      tree.SameFrame tree' ∧ Holds fresh tree' (doc.alter (withValue name value) id i) ∧
      tree'.nodes[i]? = some ref := by
  obtain ⟨node, pre, body, inner, post, hat⟩ := h.stores.exists_storedAt href
  rw [hat.properties?_eq, Option.some.injEq] at hproperties
  subst hproperties
  obtain ⟨_, _, _, -, hread, -⟩ := hat.property?_of_valueOf? hold
  have hvalue : value.length < 2 ^ 32 := Nat.lt_of_le_of_lt hle (hat.length_value_lt hold)
  have hname : 0 ∉ name := (Strings.read_eq_ok_iff.1 hread).1
  rcases hat.result_setGrowing hname hvalue (h.nameOffset_lt name) with
    ⟨tree', hresult, hupdated⟩ | ⟨hfree, -, -⟩
  · exact ⟨tree', hresult, ⟨hupdated.bootCpu, hupdated.reservations, hupdated.maxSize⟩,
      h.updated hupdated (.inr (Strings.find?_of_read hread)), hupdated.shifted.getElem? href⟩
  · rw [hat.setCost_eq_zero hold hle] at hfree
    omega

/-- A short value under the fresh name is set, or the document stays as it is. -/
theorem write (h : Holds name tree doc) (href : tree.nodes[i]? = some ref) (hname : 0 ∉ name)
    (hcost : propertyCost value + (name.length + 1) ≤ growIncrement) :
    ∃ outcome tree', (setGrowing ref name value).result tree = (outcome, tree') ∧
      Written name tree tree' doc (doc.alter (withValue name value) id i) ∧
      tree'.nodes[i]? = some ref := by
  obtain ⟨node, pre, body, inner, post, hat⟩ := h.stores.exists_storedAt href
  have hvalue := length_lt_of_propertyCost_le hcost
  have hsetCost := Nat.le_trans (tree.setCost_le ref name value) hcost
  rcases hat.result_setGrowing hname hvalue (h.nameOffset_lt name) with
    ⟨tree', hresult, hupdated⟩ | ⟨-, hlimited, e, free, hresult⟩
  · exact ⟨.ok (), tree', hresult,
      ⟨⟨hupdated.bootCpu, hupdated.reservations, hupdated.maxSize⟩,
        .inl (h.updated hupdated (.inl rfl))⟩, hupdated.shifted.getElem? href⟩
  · exact ⟨.error e, _, hresult,
      ⟨⟨rfl, rfl, rfl⟩, .inr ⟨⟨h.stores, h.room⟩, hlimited hsetCost⟩⟩, href⟩

end Holds

theorem Written.refl {fresh : Bytes} (h : Holds fresh tree doc) : Written fresh tree tree doc doc :=
  ⟨.refl tree, .inl h⟩

theorem Growable.holds {fresh : Bytes} (h : Growable fresh tree doc) : Holds fresh tree doc :=
  ⟨h.stores, h.room⟩

end Tree

end BootTree
