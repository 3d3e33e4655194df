import BootTree.Proofs.Tree.Place
import BootTree.Tree.Property

/-!
# BootTree.Proofs.Tree.Reading

What is read from a node of a stored document is what the document says. Reading goes through the
tokens of the node's properties; `Tree.propertyFrom_skip` is the step over properties of other
names.

* `Tree.StoredAt.enter`, `Tree.StoredAt.nodeName`: the node begins at its place and has its name.
* `Tree.StoredAt.property?_cases`: where the first property of a name is found, or that there is
  none.
* `Tree.StoredAt.value`, `Tree.StoredAt.valueAs`: values, raw and as a type.
* `Tree.StoredAt.propertiesEnd`: where the properties end.
-/

namespace BootTree

open Blob

/-- Read the first property of a name as a type; its value may not be of that type. -/
def readAs {α : Type} (decode : Bytes → Except ValueError α) (properties : List Property)
    (name : Bytes) : Except TreeError (Option α) :=
  match valueOf? properties name with
  | none => .ok none
  | some raw =>
    match decode raw with
    | .error _ => .error (.badValue raw.length)
    | .ok a => .ok (some a)

theorem readAs_eq_some_iff {α : Type} {decode : Bytes → Except ValueError α}
    {properties : List Property} {name : Bytes} {a : α} :
    readAs decode properties name = .ok (some a) ↔
      ∃ raw, valueOf? properties name = some raw ∧ decode raw = .ok a := by
  rw [readAs]
  cases valueOf? properties name with
  | none => simp
  | some raw => cases hraw : decode raw <;> simp [hraw]

theorem eq_word_of_singleCell {raw : Bytes} {cell : UInt32} (h : Tree.singleCell raw = .ok cell) :
    raw = Bytes.word cell := by
  unfold Tree.singleCell at h
  split at h
  · rename_i found hdecode
    cases h
    rw [← Cells.encode_of_decode hdecode]
    rfl
  · cases h

theorem singleCell_word (cell : UInt32) : Tree.singleCell (Bytes.word cell) = .ok cell := by
  have hdecode : Cells.decode (Bytes.word cell) = .ok [cell] := by
    have := Cells.decode_encode [cell]
    rwa [Cells.encode, List.flatMap_singleton] at this
  rw [Tree.singleCell, hdecode]

theorem valueOf?_eq_none_iff {properties : List Property} {name : Bytes} :
    valueOf? properties name = none ↔ ∀ p ∈ properties, p.name ≠ name := by
  simp [valueOf?]

/-- The first property of a name, if there is one, splits the properties. -/
theorem BodyOf.split_at {strings : Bytes} {ts : List Token} {ps : List Property}
    (h : BodyOf strings ts ps) (name : Bytes) :
    (∀ p ∈ ps, p.name ≠ name) ∨
      ∃ front o value behind ps₁ ps₂, ts = front ++ .property o value :: behind ∧
        ps = ps₁ ++ ⟨name, value⟩ :: ps₂ ∧ (∀ p ∈ ps₁, p.name ≠ name) ∧
        Strings.read strings o.toNat = .ok name ∧ BodyOf strings front ps₁ ∧
        BodyOf strings behind ps₂ := by
  induction h with
  | nil => left; simp
  | nop _ ih =>
    rcases ih with ih | ⟨front, o, value, behind, ps₁, ps₂, rfl, rfl, hne, hread, hfront, hbehind⟩
    · exact .inl ih
    · exact .inr ⟨.nop :: front, o, value, behind, ps₁, ps₂, rfl, rfl, hne, hread, .nop hfront,
        hbehind⟩
  | @property o value found ts ps hfound hrest ih =>
    by_cases heq : found = name
    · subst heq
      exact .inr ⟨[], o, value, ts, [], ps, rfl, rfl, by simp, hfound, .nil, hrest⟩
    · rcases ih with ih | ⟨front, o', value', behind, ps₁, ps₂, rfl, rfl, hne, hread, hfront, hbehind⟩
      · left
        intro p hp
        rcases List.mem_cons.1 hp with rfl | hp
        · exact heq
        · exact ih p hp
      · refine .inr ⟨.property o value :: front, o', value', behind, ⟨found, value⟩ :: ps₁, ps₂, rfl,
          rfl, ?_, hread, .property hfound hfront, hbehind⟩
        intro p hp
        rcases List.mem_cons.1 hp with rfl | hp
        · exact heq
        · exact hne p hp

namespace Tree

/-! ## Values, in blocks of any bytes -/

section Values

variable {tree : Tree} {node : NodeRef} {name raw : Bytes}

theorem value_eq_some_iff : tree.value node name = .ok (some raw) ↔
    ∃ found, tree.property? node name = .ok (some found) ∧ found.value = raw := by
  rw [Tree.value]
  cases tree.property? node name with
  | error e => simp [Except.map]
  | ok found => cases found <;> simp [Except.map]

theorem valueAs_eq_some_iff {α : Type} {decode : Bytes → Except ValueError α} {a : α} :
    tree.valueAs decode node name = .ok (some a) ↔
      ∃ raw, tree.value node name = .ok (some raw) ∧ decode raw = .ok a := by
  rw [Tree.valueAs]
  cases tree.value node name with
  | error e => simp
  | ok found =>
    cases found with
    | none => simp
    | some raw => cases hraw : decode raw <;> simp [hraw]

end Values

/-! ## Going through the properties -/

section Steps

variable {strings name bytes : Bytes} {offset : Nat}

theorem propertyFrom_nop (h : Token.read? bytes = some .nop) :
    propertyFrom strings name offset bytes =
      propertyFrom strings name (offset + Token.nop.size) (bytes.drop Token.nop.size) := by
  rw [propertyFrom]
  split <;> rename_i heq <;> rw [h] at heq <;> cases heq
  rename_i hne
  exact absurd rfl hne

theorem propertyFrom_property {o : UInt32} {value found : Bytes}
    (h : Token.read? bytes = some (.property o value))
    (hfound : Strings.read strings o.toNat = .ok found) :
    propertyFrom strings name offset bytes =
      if found = name then .ok (some ⟨offset, o, value⟩)
      else propertyFrom strings name (offset + (Token.property o value).size)
        (bytes.drop (Token.property o value).size) := by
  rw [propertyFrom]
  split <;> rename_i heq <;> rw [h] at heq <;> cases heq
  · rw [hfound]
  · rename_i hne _; exact absurd rfl (hne _ _)

theorem propertyFrom_end {t : Token} (h : Token.read? bytes = some t)
    (ht : t = .endNode ∨ ∃ n, t = .beginNode n) :
    propertyFrom strings name offset bytes = .ok none := by
  rw [propertyFrom]
  rcases ht with rfl | ⟨n, rfl⟩ <;> split <;> rename_i heq <;> rw [h] at heq <;> cases heq

theorem propertiesEndFrom_end {t : Token} (h : Token.read? bytes = some t)
    (ht : t = .endNode ∨ ∃ n, t = .beginNode n) : propertiesEndFrom offset bytes = .ok offset := by
  rw [propertiesEndFrom]
  rcases ht with rfl | ⟨n, rfl⟩ <;> split <;> rename_i heq <;> rw [h] at heq <;> cases heq

/-- Properties of other names are passed over. -/
theorem propertyFrom_skip {ts rest : List Token} {ps : List Property} (h : BodyOf strings ts ps)
    (hne : ∀ p ∈ ps, p.name ≠ name) (htokens : tokens? bytes = some (ts ++ rest)) :
    propertyFrom strings name offset bytes =
      propertyFrom strings name (offset + width ts) (bytes.drop (width ts)) := by
  induction h generalizing bytes offset with
  | nil => simp
  | nop _ ih =>
    obtain ⟨hread, hrest⟩ := tokens?_eq_cons_iff.1 htokens
    rw [propertyFrom_nop hread, ih hne hrest, width_cons, List.drop_drop, Nat.add_assoc]
  | @property o value found ts ps hfound _ ih =>
    obtain ⟨hread, hrest⟩ := tokens?_eq_cons_iff.1 htokens
    have hother : found ≠ name := hne ⟨found, value⟩ List.mem_cons_self
    have hothers : ∀ p ∈ ps, p.name ≠ name := by
      intro p hp
      exact hne p (List.mem_cons_of_mem _ hp)
    rw [propertyFrom_property hread hfound, if_neg hother, ih hothers hrest, width_cons,
      List.drop_drop, Nat.add_assoc]

theorem propertiesEndFrom_skip {ts rest : List Token} {ps : List Property}
    (h : BodyOf strings ts ps) (htokens : tokens? bytes = some (ts ++ rest)) :
    propertiesEndFrom offset bytes =
      propertiesEndFrom (offset + width ts) (bytes.drop (width ts)) := by
  induction h generalizing bytes offset with
  | nil => simp
  | nop _ ih =>
    obtain ⟨hread, hrest⟩ := tokens?_eq_cons_iff.1 htokens
    rw [propertiesEndFrom]
    split <;> rename_i heq <;> rw [hread] at heq <;> cases heq
    · rw [ih hrest, width_cons, List.drop_drop, Nat.add_assoc]
    · rename_i hne; exact absurd rfl hne
  | property _ _ ih =>
    obtain ⟨hread, hrest⟩ := tokens?_eq_cons_iff.1 htokens
    rw [propertiesEndFrom]
    split <;> rename_i heq <;> rw [hread] at heq <;> cases heq
    · rw [ih hrest, width_cons, List.drop_drop, Nat.add_assoc]
    · rename_i hne _; exact absurd rfl (hne _ _)

end Steps

end Tree

/-- Behind its properties a node ends or its first child begins. -/
theorem NodeAt.behind_body {strings : Bytes} {doc : Document} {i : Nat} {node : Node}
    {pre body inner post : List Token} (h : NodeAt strings doc i node pre body inner post) :
    ∃ t us, inner ++ .endNode :: post = t :: us ∧ (t = .endNode ∨ ∃ n, t = .beginNode n) := by
  generalize hf : node.children = f
  have hinner := h.innerOf
  rw [hf] at hinner
  cases hinner with
  | nil => exact ⟨_, _, rfl, .inl rfl⟩
  | nop _ => exact absurd rfl (h.settled _)
  | node _ _ _ _ => exact ⟨_, _, rfl, .inr ⟨_, rfl⟩⟩

namespace Tree.StoredAt

variable {tree : Tree} {doc : Document} {i : Nat} {ref : NodeRef} {node : Node}
  {pre body inner post : List Token}

theorem enter (h : tree.StoredAt doc i ref node pre body inner post) :
    tree.enter ref = .ok (node.name, width pre + (Token.beginNode node.name).size) := by
  have hread := read?_drop_of_tokens? h.tokens
  rw [Tree.enter, h.offset, hread]

theorem nodeName (h : tree.StoredAt doc i ref node pre body inner post) :
    tree.nodeName ref = .ok node.name := by
  rw [Tree.nodeName, h.enter]
  change (if _ then (pure node.name : Except TreeError Bytes) else _) = _
  rw [if_pos h.cut.isText]
  rfl

theorem tokens_body (h : tree.StoredAt doc i ref node pre body inner post) :
    tokens? (tree.structBlock.drop (width pre + (Token.beginNode node.name).size)) =
      some (body ++ (inner ++ .endNode :: post)) := by
  rw [← List.drop_drop]
  exact (tokens?_eq_cons_iff.1 (tokens?_drop h.tokens)).2

/-- A node either has no property of a name, or the first one is found where its token is. -/
theorem property?_cases (h : tree.StoredAt doc i ref node pre body inner post) (name : Bytes) :
    (tree.property? ref name = .ok none ∧ ∀ p ∈ node.properties, p.name ≠ name) ∨
      ∃ front o value behind ps₁ ps₂, body = front ++ .property o value :: behind ∧
        node.properties = ps₁ ++ ⟨name, value⟩ :: ps₂ ∧ (∀ p ∈ ps₁, p.name ≠ name) ∧
        Strings.read tree.strings o.toNat = .ok name ∧ BodyOf tree.strings front ps₁ ∧
        BodyOf tree.strings behind ps₂ ∧
        tree.property? ref name = .ok (some ⟨width (pre ++ .beginNode node.name :: front), o, value⟩) := by
  have htokens := h.tokens_body
  have hproperty : tree.property? ref name = propertyFrom tree.strings name
      (width pre + (Token.beginNode node.name).size)
      (tree.structBlock.drop (width pre + (Token.beginNode node.name).size)) := by
    rw [property?, h.enter]
  rcases h.cut.bodyOf.split_at name with
    hne | ⟨front, o, value, behind, ps₁, ps₂, rfl, hps, hne, hread, hfront, hbehind⟩
  · left
    obtain ⟨t, us, hbehind, ht⟩ := h.cut.behind_body
    refine ⟨?_, hne⟩
    rw [hproperty, propertyFrom_skip h.cut.bodyOf hne htokens]
    have := tokens?_drop htokens
    rw [hbehind] at this
    exact propertyFrom_end (tokens?_eq_cons_iff.1 this).1 ht
  · right
    refine ⟨front, o, value, behind, ps₁, ps₂, rfl, hps, hne, hread, hfront, hbehind, ?_⟩
    rw [List.append_assoc] at htokens
    rw [hproperty, propertyFrom_skip hfront hne htokens,
      propertyFrom_property (read?_drop_of_tokens? htokens) hread, if_pos rfl]
    simp [Nat.add_assoc]

theorem property?_of_valueOf? (h : tree.StoredAt doc i ref node pre body inner post)
    {name value : Bytes} (hvalue : valueOf? node.properties name = some value) :
    ∃ front o behind, body = front ++ .property o value :: behind ∧
      Strings.read tree.strings o.toNat = .ok name ∧
      tree.property? ref name =
        .ok (some ⟨width (pre ++ .beginNode node.name :: front), o, value⟩) := by
  rcases h.property?_cases name with
    ⟨-, hne⟩ | ⟨front, o, found, behind, ps₁, ps₂, hbody, hps, hne, hread, -, -, hsome⟩
  · rw [valueOf?_eq_none_iff.2 hne] at hvalue
    cases hvalue
  · have hfront : ps₁.find? (·.name = name) = none := by simpa using hne
    have hfound : found = value := by
      rw [hps] at hvalue
      simpa [valueOf?, List.find?_append, hfront] using hvalue
    subst hfound
    exact ⟨front, o, behind, hbody, hread, hsome⟩

theorem value (h : tree.StoredAt doc i ref node pre body inner post) (name : Bytes) :
    tree.value ref name = .ok (valueOf? node.properties name) := by
  rcases h.property?_cases name with
    ⟨hnone, hne⟩ | ⟨front, o, value, behind, ps₁, ps₂, -, hps, hne, -, -, -, hsome⟩
  · rw [Tree.value, hnone, valueOf?_eq_none_iff.2 hne]; rfl
  · rw [Tree.value, hsome, hps]
    have hfront : ps₁.find? (·.name = name) = none := by simpa using hne
    simp [valueOf?, List.find?_append, hfront, Except.map]

theorem valueAs {α : Type} (decode : Bytes → Except ValueError α)
    (h : tree.StoredAt doc i ref node pre body inner post) (name : Bytes) :
    tree.valueAs decode ref name = readAs decode node.properties name := by
  rw [Tree.valueAs, h.value, readAs]
  cases valueOf? node.properties name with
  | none => rfl
  | some raw => rfl

theorem propertiesEnd (h : tree.StoredAt doc i ref node pre body inner post) :
    tree.propertiesEnd ref = .ok (width (pre ++ .beginNode node.name :: body)) := by
  obtain ⟨t, us, hbehind, ht⟩ := h.cut.behind_body
  have htokens := h.tokens_body
  have hrest := tokens?_drop htokens
  rw [hbehind] at hrest
  rw [Tree.propertiesEnd, h.enter]
  dsimp only
  rw [propertiesEndFrom_skip h.cut.bodyOf htokens,
    propertiesEndFrom_end (tokens?_eq_cons_iff.1 hrest).1 ht]
  simp [Nat.add_assoc]

theorem properties?_eq (h : tree.StoredAt doc i ref node pre body inner post) :
    doc.properties? i = some node.properties := by
  rw [Document.properties?, h.cut.node?]; rfl

end Tree.StoredAt

theorem Tree.Stores.value {tree : Tree} {doc : Document} {i : Nat} {ref : NodeRef}
    {ps : List Property} (h : tree.Stores doc) (href : tree.nodes[i]? = some ref)
    (hps : doc.properties? i = some ps) (name : Bytes) :
    tree.value ref name = .ok (valueOf? ps name) := by
  obtain ⟨node, pre, body, inner, post, hat⟩ := h.exists_storedAt href
  rw [hat.properties?_eq, Option.some.injEq] at hps
  rw [hat.value, hps]

theorem Tree.Stores.valueAs {α : Type} {tree : Tree} {doc : Document} {i : Nat} {ref : NodeRef}
    {ps : List Property} (h : tree.Stores doc) (href : tree.nodes[i]? = some ref)
    (hps : doc.properties? i = some ps) (decode : Bytes → Except ValueError α) (name : Bytes) :
    tree.valueAs decode ref name = readAs decode ps name := by
  obtain ⟨node, pre, body, inner, post, hat⟩ := h.exists_storedAt href
  rw [hat.properties?_eq, Option.some.injEq] at hps
  rw [hat.valueAs, hps]

end BootTree
