import BootTree.Proofs.Document.Unique
import BootTree.Proofs.Tree.Editing
import BootTree.Proofs.Tree.Reading

/-!
# BootTree.Proofs.Tree.SetValue

Setting a property changes the stored document in one place. The bytes that are replaced are those
of whole tokens of one node, so the new structure block consists of the old tokens with others in
their place, and the cut at the node says which document they store.

* `Tree.StoredAt.replaceBody`: other tokens for the properties of a node, stored with a strings
  block that keeps all names.
* `Tree.Stores.setValue_cases`: what setting a property of a stored document comes to.
* `Tree.stores_setValue`: the document afterwards, and where its nodes are.
-/

namespace BootTree

open Blob

/-- Nodes keep their numbers; those up to `limit` also keep their places, and those behind it move
by one multiple of four bytes. -/
def Shifted (limit : Nat) (before after : List NodeRef) : Prop :=
  ∃ d : Int, d % 4 = 0 ∧ after.length = before.length ∧
    ∀ (j : Nat) (node node' : NodeRef), before[j]? = some node → after[j]? = some node' →
      (node'.offset : Int) = if node.offset ≤ limit then (node.offset : Int) else node.offset + d

theorem Shifted.getElem? {ref : NodeRef} {before after : List NodeRef} {i : Nat}
    (h : Shifted ref.offset before after) (href : before[i]? = some ref) : after[i]? = some ref := by
  obtain ⟨d, -, hlen, hplace⟩ := h
  obtain ⟨hi, -⟩ := List.getElem?_eq_some_iff.1 href
  obtain ⟨ref', href'⟩ : ∃ ref', after[i]? = some ref' :=
    ⟨_, List.getElem?_eq_getElem (hlen ▸ hi)⟩
  have := hplace i ref ref' href href'
  rw [if_pos (Nat.le_refl _), Int.ofNat_inj] at this
  rw [href']
  cases ref
  cases ref'
  subst this
  rfl

theorem BodyOf.append {strings : Bytes} {s t : List Token} {ps qs : List Property}
    (hs : BodyOf strings s ps) (ht : BodyOf strings t qs) : BodyOf strings (s ++ t) (ps ++ qs) := by
  induction hs with
  | nil => exact ht
  | nop _ ih => exact .nop ih
  | property hname _ ih => exact .property hname ih

theorem withValue_of_not_mem {name value : Bytes} {ps : List Property}
    (h : ∀ p ∈ ps, p.name ≠ name) : withValue name value ps = ps ++ [⟨name, value⟩] := by
  induction ps with
  | nil => rfl
  | cons p ps ih =>
    have hothers : ∀ q ∈ ps, q.name ≠ name := by
      intro q hq
      exact h q (List.mem_cons_of_mem _ hq)
    rw [withValue, if_neg (h p List.mem_cons_self), ih hothers]
    rfl

theorem withValue_split {name old value : Bytes} {ps₁ ps₂ : List Property}
    (h : ∀ p ∈ ps₁, p.name ≠ name) :
    withValue name value (ps₁ ++ ⟨name, old⟩ :: ps₂) = ps₁ ++ ⟨name, value⟩ :: ps₂ := by
  induction ps₁ with
  | nil => simp [withValue]
  | cons p ps ih =>
    have hothers : ∀ q ∈ ps, q.name ≠ name := by
      intro q hq
      exact h q (List.mem_cons_of_mem _ hq)
    rw [List.cons_append, withValue, if_neg (h p List.mem_cons_self), ih hothers]
    rfl

theorem shifted_of_append {front rest rest' : List NodeRef} {place w w' : Nat} {ts : List Token}
    (hfront : ∀ node ∈ front, node.offset < place) (hw : place < w)
    (hmod : w % 4 = w' % 4) (hrest : rest = begins w ts) (hrest' : rest' = begins w' ts) :
    Shifted place (front ++ ⟨place⟩ :: rest) (front ++ ⟨place⟩ :: rest') := by
  refine ⟨(w' : Int) - w, by omega, ?_, ?_⟩
  · have hlen := congrArg List.length (begins_add w 0 ts)
    have hlen' := congrArg List.length (begins_add w' 0 ts)
    simp only [Nat.add_zero, List.length_map] at hlen hlen'
    simp [hrest, hrest', hlen, hlen']
  · intro j node node' hnode hnode'
    by_cases hj : j < front.length
    · rw [List.getElem?_append_left hj] at hnode hnode'
      rw [hnode, Option.some.injEq] at hnode'
      have := hfront node (List.mem_of_getElem? hnode)
      rw [← hnode', if_pos (by omega)]
    · rw [List.getElem?_append_right (by omega)] at hnode hnode'
      cases hk : j - front.length with
      | zero =>
        rw [hk, List.getElem?_cons_zero, Option.some.injEq] at hnode hnode'
        rw [← hnode, ← hnode', if_pos (Nat.le_refl _)]
      | succ k =>
        have hshift (base : Nat) : begins base ts = (begins 0 ts).map fun n => ⟨base + n.offset⟩ := by
          have := begins_add base 0 ts
          rwa [Nat.add_zero] at this
        rw [hk, List.getElem?_cons_succ, hrest, hshift w, List.getElem?_map] at hnode
        rw [hk, List.getElem?_cons_succ, hrest', hshift w', List.getElem?_map] at hnode'
        obtain ⟨n, hn, rfl⟩ := Option.map_eq_some_iff.1 hnode
        rw [hn, Option.map_some, Option.some.injEq] at hnode'
        rw [← hnode']
        dsimp only
        rw [if_neg (by omega)]
        omega

namespace Tree

theorem namesKept_withName (tree : Tree) (name : Bytes) :
    NamesKept tree.strings (tree.withName name).strings := by
  intro offset found h
  unfold withName
  split
  · exact h
  · rw [Strings.append, List.append_assoc]
    exact Strings.read_append_block h _

theorem read_nameOffset (tree : Tree) {name : Bytes} (hname : 0 ∉ name) :
    Strings.read (tree.withName name).strings (tree.nameOffset name) = .ok name := by
  unfold withName nameOffset
  cases hfind : Strings.find? tree.strings name with
  | some offset => exact Strings.read_of_find? hfind hname
  | none => exact Strings.read_append_self _ hname

namespace StoredAt

variable {tree : Tree} {doc : Document} {i : Nat} {ref : NodeRef} {node : Node}
  {pre body inner post : List Token}

theorem place (h : tree.StoredAt doc i ref node pre body inner post) : ref = ⟨width pre⟩ := by
  rw [← h.offset]

/-- A tree whose structure block differs in the properties of one node, and whose strings block
keeps all names, stores the document with that node altered. -/
theorem replaceBody (h : tree.StoredAt doc i ref node pre body inner post) (tree' : Tree)
    {body' : List Token} {p : List Property → List Property}
    (hkept : NamesKept tree.strings tree'.strings)
    (htokens : tokens? tree'.structBlock = some (around pre node.name body' inner post))
    (hbody : BodyOf tree'.strings body' (p node.properties)) :
    tree'.Stores (doc.alter p id i) ∧ Shifted ref.offset tree.nodes tree'.nodes := by
  refine ⟨⟨_, htokens, h.cut.alter hkept hbody (h.cut.innerOf.mono hkept)⟩, ?_⟩
  rw [nodes, nodes, h.tokens, htokens, Option.getD_some, Option.getD_some,
    begins_around h.cut.bodyOf, begins_around hbody, h.place]
  refine shifted_of_append ?_ ?_ ?_ rfl rfl
  · intro n hn
    have := mem_begins hn
    dsimp only
    omega
  · have := (Token.beginNode node.name).four_le_size
    rw [width_append, width_cons]
    dsimp only
    omega
  · rw [width_mod, width_mod]

end StoredAt

/-! ## Setting a property -/

/-- A tree after an edit of the properties of one node, which may have put a name into the strings
block. -/
structure Updated (tree tree' : Tree) (doc : Document) (i : Nat) (ref : NodeRef) (name : Bytes)
    (p : List Property → List Property) : Prop where
  stores : tree'.Stores (doc.alter p id i)
  shifted : Shifted ref.offset tree.nodes tree'.nodes
  bootCpu : tree'.bootCpu = tree.bootCpu
  reservations : tree'.reservations = tree.reservations
  maxSize : tree'.maxSize = tree.maxSize
  strings : tree'.strings = tree.strings ∨ tree'.strings = (tree.withName name).strings

theorem Updated.value_eq {tree tree' : Tree} {doc : Document} {i : Nat} {ref : NodeRef}
    {name value : Bytes} (h : Updated tree tree' doc i ref name (withValue name value))
    (hdoc : tree.Stores doc) (href : tree.nodes[i]? = some ref) :
    tree'.value ref name = .ok (some value) := by
  obtain ⟨node, pre, body, inner, post, hat⟩ := hdoc.exists_storedAt href
  have hproperties : (doc.alter (withValue name value) id i).properties? i =
      some (withValue name value node.properties) := by
    rw [Document.properties?_alter _ _ _ _ hat.cut.lt_size, if_pos rfl, hat.properties?_eq]
    rfl
  rw [h.stores.value (h.shifted.getElem? href) hproperties, valueOf?_withValue]

/-- The free space that setting a property takes. -/
def setCost (tree : Tree) (node : NodeRef) (name value : Bytes) : Nat :=
  match tree.property? node name with
  | .ok (some old) => propertyCost value - old.token.size
  | _ => propertyCost value + tree.nameCost name

theorem nameCost_le (tree : Tree) (name : Bytes) : tree.nameCost name ≤ name.length + 1 := by
  unfold nameCost
  split <;> omega

theorem setCost_le (tree : Tree) (node : NodeRef) (name value : Bytes) :
    tree.setCost node name value ≤ propertyCost value + (name.length + 1) := by
  have hname := tree.nameCost_le name
  unfold setCost
  split <;> omega

theorem nameOffset_le (tree : Tree) (name : Bytes) : tree.nameOffset name ≤ tree.strings.length := by
  unfold nameOffset
  cases hfind : Strings.find? tree.strings name with
  | some offset =>
    have := (Strings.find?_bound hfind).1
    simp only [Option.getD_some]; omega
  | none => exact Nat.le_refl _

namespace StoredAt

variable {tree : Tree} {doc : Document} {i : Nat} {ref : NodeRef} {node : Node}
  {pre body inner post : List Token} {name value : Bytes}

theorem updated_replace (h : tree.StoredAt doc i ref node pre body inner post)
    {front behind : List Token} {o : UInt32} {old : Bytes} {ps₁ ps₂ : List Property}
    (hbody : body = front ++ .property o old :: behind)
    (hps : node.properties = ps₁ ++ ⟨name, old⟩ :: ps₂) (hne : ∀ p ∈ ps₁, p.name ≠ name)
    (hread : Strings.read tree.strings o.toNat = .ok name)
    (hfront : BodyOf tree.strings front ps₁) (hbehind : BodyOf tree.strings behind ps₂)
    (hvalue : value.length < 2 ^ 32) :
    Updated tree (tree.spliced (width (pre ++ .beginNode node.name :: front))
      (Token.property o old).size (Token.property o value).encode) doc i ref name
      (withValue name value) := by
  subst hbody
  have hold : tokens? tree.structBlock = some (pre ++ .beginNode node.name :: front ++
      [.property o old] ++ (behind ++ (inner ++ .endNode :: post))) := by
    rw [h.tokens]; simp [around]
  have hnew := tokens?_splice hold
    (tokens?_encode_singleton (t := .property o value) (by exact hvalue))
  rw [width_cons, width_nil, Nat.add_zero] at hnew
  have hbody' : BodyOf tree.strings (front ++ .property o value :: behind)
      (withValue name value node.properties) := by
    rw [hps, withValue_split hne]
    exact hfront.append (.property hread hbehind)
  obtain ⟨hstores, hshifted⟩ := h.replaceBody (tree.spliced _ _ _) (fun _ _ hfound => hfound)
    (by rw [spliced, hnew]; simp [around]) hbody'
  exact ⟨hstores, hshifted, rfl, rfl, rfl, .inl rfl⟩

theorem updated_append (h : tree.StoredAt doc i ref node pre body inner post)
    (hne : ∀ p ∈ node.properties, p.name ≠ name) (hname : 0 ∉ name)
    (hvalue : value.length < 2 ^ 32) (hoffset : tree.nameOffset name < 2 ^ 32) :
    Updated tree ((tree.withName name).spliced (width (pre ++ .beginNode node.name :: body)) 0
      (Token.property (UInt32.ofNat (tree.nameOffset name)) value).encode) doc i ref name
      (withValue name value) := by
  have hkept := tree.namesKept_withName name
  have hread : Strings.read (tree.withName name).strings
      (UInt32.ofNat (tree.nameOffset name)).toNat = .ok name := by
    rw [UInt32.toNat_ofNat', Nat.mod_eq_of_lt hoffset]
    exact tree.read_nameOffset hname
  have hold : tokens? (tree.withName name).structBlock = some (pre ++ .beginNode node.name :: body ++
      [] ++ (inner ++ .endNode :: post)) := by
    rw [structBlock_withName, h.tokens]; simp [around]
  have hnew := tokens?_splice hold (tokens?_encode_singleton
    (t := .property (UInt32.ofNat (tree.nameOffset name)) value) (by exact hvalue))
  rw [width_nil] at hnew
  have hbody' : BodyOf (tree.withName name).strings
      (body ++ [.property (UInt32.ofNat (tree.nameOffset name)) value])
      (withValue name value node.properties) := by
    rw [withValue_of_not_mem hne]
    exact (h.cut.bodyOf.mono hkept).append (.property hread .nil)
  obtain ⟨hstores, hshifted⟩ := h.replaceBody ((tree.withName name).spliced _ _ _) hkept
    (by rw [spliced, hnew]; simp [around]) hbody'
  refine ⟨hstores, hshifted, ?_, ?_, ?_, .inr rfl⟩
  all_goals
    simp only [spliced, withName]
    split <;> rfl

/-- Without the space it takes, setting a property fails and leaves the tree alone. -/
theorem setValue_of_lt (h : tree.StoredAt doc i ref node pre body inner post)
    (hfree : tree.free < tree.setCost ref name value) :
    setValue ref name value tree = .error (.noSpace (tree.setCost ref name value)) tree := by
  rw [setValue_eq]
  unfold setCost at *
  rcases h.property?_cases name with
    ⟨hnone, -⟩ | ⟨front, o, old, behind, ps₁, ps₂, -, -, -, -, -, -, hsome⟩
  · rw [hnone] at hfree ⊢
    dsimp only at hfree ⊢
    rw [appendProperty_eq, if_pos hfree]
  · rw [hsome] at hfree ⊢
    dsimp only at hfree ⊢
    rw [spliceStruct_eq, length_property_encode, if_pos (by omega)]

/-- With the space it takes, setting a property succeeds and changes the document in one place. -/
theorem setValue_of_le (h : tree.StoredAt doc i ref node pre body inner post) (hname : 0 ∉ name)
    (hvalue : value.length < 2 ^ 32) (hoffset : tree.nameOffset name < 2 ^ 32)
    (hfree : tree.setCost ref name value ≤ tree.free) :
    ∃ tree', setValue ref name value tree = .ok () tree' ∧
      Updated tree tree' doc i ref name (withValue name value) := by
  rw [setValue_eq]
  unfold setCost at hfree
  rcases h.property?_cases name with
    ⟨hnone, hne⟩ | ⟨front, o, old, behind, ps₁, ps₂, hbody, hps, hne, hread, hfront, hbehind, hsome⟩
  · rw [hnone] at hfree ⊢
    dsimp only at hfree ⊢
    rw [appendProperty_eq, if_neg (by omega), h.propertiesEnd]
    exact ⟨_, rfl, h.updated_append hne hname hvalue hoffset⟩
  · rw [hsome] at hfree ⊢
    dsimp only at hfree ⊢
    rw [spliceStruct_eq, length_property_encode, if_neg (by omega)]
    exact ⟨_, rfl, h.updated_replace hbody hps hne hread hfront hbehind hvalue⟩

theorem propertyCost_le (h : tree.StoredAt doc i ref node pre body inner post)
    (hfree : tree.setCost ref name value ≤ tree.free) : propertyCost value ≤ tree.totalSize := by
  have htotal : tree.structBlock.length + tree.free ≤ tree.totalSize := by
    simp only [totalSize, usedSize, stringsOffset]; omega
  unfold setCost at hfree
  rcases h.property?_cases name with
    ⟨hnone, -⟩ | ⟨front, o, old, behind, ps₁, ps₂, rfl, -, -, -, -, -, hsome⟩
  · rw [hnone] at hfree
    dsimp only at hfree
    omega
  · rw [hsome] at hfree
    dsimp only [Located.token] at hfree
    have hlength := length_of_tokens? h.tokens
    simp only [around, width_append, width_cons] at hlength
    omega

end StoredAt

/-- **Setting a property, said of the document.** If it succeeds, the tree stores the old document
with one change: the first property of the node with this name has the value, or it is the node's
new last property. The value is what is read then, and no other node changes its number. -/
theorem stores_setValue {tree tree' : Tree} {doc : Document} {i : Nat} {ref : NodeRef}
    {name value : Bytes} (hsize : tree.totalSize < 2 ^ 32) (hdoc : tree.Stores doc)
    (href : tree.nodes[i]? = some ref) (hname : 0 ∉ name)
    (hset : setValue ref name value tree = .ok () tree') :
    (∀ doc', tree'.Stores doc' ↔ doc' = doc.alter (withValue name value) id i) ∧
      tree'.reservations = tree.reservations ∧ tree'.bootCpu = tree.bootCpu ∧
      tree'.value ref name = .ok (some value) ∧ Shifted ref.offset tree.nodes tree'.nodes := by
  obtain ⟨node, pre, body, inner, post, hat⟩ := hdoc.exists_storedAt href
  have hfree : tree.setCost ref name value ≤ tree.free := by
    by_cases hlt : tree.free < tree.setCost ref name value
    · rw [hat.setValue_of_lt hlt] at hset; cases hset
    · omega
  have hvalue : value.length < 2 ^ 32 := by
    have := hat.propertyCost_le hfree
    have := Bytes.le_alignUp value.length
    simp only [propertyCost] at *
    omega
  have hoffset : tree.nameOffset name < 2 ^ 32 := by
    have := tree.nameOffset_le name
    have : tree.strings.length ≤ tree.totalSize := by
      simp only [totalSize, usedSize]; omega
    omega
  obtain ⟨tree'', hok, hupdated⟩ := hat.setValue_of_le hname hvalue hoffset hfree
  rw [hset, EStateM.Result.ok.injEq] at hok
  obtain ⟨-, rfl⟩ := hok
  refine ⟨?_, hupdated.reservations, hupdated.bootCpu, ?_, hupdated.shifted⟩
  · intro doc'
    constructor
    · intro h
      exact h.unique hupdated.stores
    · intro h
      rw [h]
      exact hupdated.stores
  rw [hupdated.stores.value (hupdated.shifted.getElem? href)
    (by rw [Document.properties?_alter _ _ _ _ hat.cut.lt_size, if_pos rfl, hat.properties?_eq]; rfl),
    valueOf?_withValue]

/-! ## A name inside a longer one -/

def sharedTailTokens : List Token :=
  [.beginNode [], .property 0 [1], .nop, .beginNode (Bytes.ofText "dma"),
    .property 16 [0, 0, 0, 1], .endNode, .endNode, .finish]

/-- A tree whose strings block has `names` only as the end of `interrupt-names`. -/
def sharedTail : Tree where
  bootCpu := 1
  reservations := [⟨0x80000000, 0x10000⟩]
  structBlock := sharedTailTokens.flatMap Token.encode
  strings := Bytes.ofText "interrupt-names\x00reg\x00"
  free := 40
  maxSize := none

theorem sharedTail_stores : sharedTail.Stores ⟨[], [⟨Bytes.ofText "interrupt-names", [1]⟩],
    .node (Bytes.ofText "dma") [⟨Bytes.ofText "reg", [0, 0, 0, 1]⟩] .nil .nil⟩ := by
  have hname : 0 ∉ Bytes.ofText "dma" := by decide +kernel
  have hstorable : ∀ t ∈ sharedTailTokens, t.IsStorable := by
    simp [sharedTailTokens, Token.IsStorable, hname]
  have hdma : SiblingsOf sharedTail.strings
      [.beginNode (Bytes.ofText "dma"), .property 16 [0, 0, 0, 1], .endNode]
      (.node (Bytes.ofText "dma") [⟨Bytes.ofText "reg", [0, 0, 0, 1]⟩] .nil .nil) :=
    .node (Bytes.isText_ofText "dma") (.property (by cbv) .nil) .nil .nil
  exact ⟨_, tokens?_encode hstorable, .root 0 0 (Bytes.isText_ofText "")
    (.property (by cbv) (.nop .nil)) hdma⟩

/-- The new property takes its name from the end of the longer one, and the node behind moves. -/
theorem stores_setValue_sharedTail :
    ∃ tree', setValue ⟨0⟩ (Bytes.ofText "names") [7, 0] sharedTail = .ok () tree' ∧
      (∀ doc', tree'.Stores doc' ↔ doc' =
        ⟨[], [⟨Bytes.ofText "interrupt-names", [1]⟩, ⟨Bytes.ofText "names", [7, 0]⟩],
          .node (Bytes.ofText "dma") [⟨Bytes.ofText "reg", [0, 0, 0, 1]⟩] .nil .nil⟩) ∧
      tree'.reservations = [⟨0x80000000, 0x10000⟩] ∧ tree'.bootCpu = 1 ∧
      tree'.value ⟨0⟩ (Bytes.ofText "names") = .ok (some [7, 0]) ∧
      Shifted 0 [⟨0⟩, ⟨28⟩] tree'.nodes := by
  have hset : setValue ⟨0⟩ (Bytes.ofText "names") [7, 0] sharedTail = .ok ()
      { sharedTail with
        structBlock := ([.beginNode [], .property 0 [1], .nop, .property 10 [7, 0],
          .beginNode (Bytes.ofText "dma"), .property 16 [0, 0, 0, 1], .endNode, .endNode,
          .finish] : List Token).flatMap Token.encode
        free := 24 } := by cbv
  have hnodes : sharedTail.nodes = [⟨0⟩, ⟨28⟩] := by cbv
  refine ⟨_, hset, ?_⟩
  have h := stores_setValue (by cbv) sharedTail_stores (i := 0) (by rw [hnodes]; rfl)
    (by decide +kernel) hset
  rw [hnodes] at h
  exact h

end Tree

end BootTree
