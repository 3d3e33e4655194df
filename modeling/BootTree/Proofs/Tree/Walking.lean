import BootTree.Proofs.Tree.Reading

/-!
# BootTree.Proofs.Tree.Walking

Walks through a stored document. A walk that starts at a node goes through the tokens inside it;
along the tokens of sibling nodes it meets each node of their forest once, in document order and at
its depth. So the child that a name means is the first sibling with such a name.

* `Tree.walkAt_eq`: a walk, one token at a time, in blocks of any bytes.
* `SiblingsOf.walkAt`: a walk along the tokens of sibling nodes.
* `SiblingsOf.find?_met`: the search for a child among the nodes that the walk meets.
* `Tree.StoredAt.child?`: the child of a node of a stored document.
-/

namespace BootTree

open Blob

namespace Tree.Walk

def after (nodes : List (NodeRef × Int)) (walk : Walk) : Walk :=
  { walk with nodes := nodes ++ walk.nodes }

theorem find?_eq {accept : NodeRef → Int → Except TreeError Bool} {p : NodeRef × Int → Bool}
    {nodes : List (NodeRef × Int)} (h : ∀ n ∈ nodes, accept n.1 n.2 = .ok (p n)) :
    (after nodes ⟨[], none⟩).find? accept = .ok (nodes.find? p) := by
  have hgo (walk : Walk) (hwalk : walk.failure = none) :
      find?.go walk accept nodes = .ok (nodes.find? p) := by
    induction nodes with
    | nil => rw [find?.go, hwalk]; rfl
    | cons n ns ih =>
      rw [find?.go, h n List.mem_cons_self, List.find?_cons]
      cases p n with
      | true => rfl
      | false =>
        apply ih
        intro m hm
        exact h m (List.mem_cons_of_mem _ hm)
  rw [find?, after, List.append_nil]
  exact hgo _ rfl

end Tree.Walk

namespace Tree

variable {tree : Tree} {o : Nat} {ts us : List Token}

/-! ## Steps -/

/-- What a walk meets from an offset on. -/
def walkAt (tree : Tree) (o : Nat) (depth : Int) : Walk :=
  match nextFrom o (tree.structBlock.drop o) depth with
  | .error e => ⟨[], some e⟩
  | .ok none => ⟨[], none⟩
  | .ok (some (found, d)) => (tree.walkFrom found d).prepend found d

theorem walkFrom_eq_walkAt {node : NodeRef} {name : Bytes} (depth : Int)
    (h : tree.enter node = .ok (name, o)) : tree.walkFrom node depth = tree.walkAt o depth := by
  have hnext : tree.next node depth = nextFrom o (tree.structBlock.drop o) depth := by
    rw [next, h]
  rw [walkFrom, walkAt, ← hnext]
  split <;> rename_i heq <;> rw [heq]

theorem enter_of_read? {name : Bytes}
    (h : Token.read? (tree.structBlock.drop node.offset) = some (.beginNode name)) :
    tree.enter node = .ok (name, node.offset + (Token.beginNode name).size) := by
  rw [enter, h]

theorem read?_of_enter {name : Bytes} (h : tree.enter node = .ok (name, o)) :
    Token.read? (tree.structBlock.drop node.offset) = some (.beginNode name) ∧
      o = node.offset + (Token.beginNode name).size := by
  rw [enter] at h
  split at h
  · rename_i hread
    cases h
    exact ⟨hread, rfl⟩
  · cases h

theorem nextFrom_eq (o : Nat) (tokens : Bytes) (depth : Int) :
    nextFrom o tokens depth =
      match Token.read? tokens with
      | none => .error (.badStructure o)
      | some (.beginNode _) => .ok (some (⟨o⟩, depth + 1))
      | some .finish => .ok none
      | some .endNode =>
        if depth ≤ 0 then .ok none
        else nextFrom (o + Token.endNode.size) (tokens.drop Token.endNode.size) (depth - 1)
      | some .nop => nextFrom (o + Token.nop.size) (tokens.drop Token.nop.size) depth
      | some (.property nameOffset value) =>
        nextFrom (o + (Token.property nameOffset value).size)
          (tokens.drop (Token.property nameOffset value).size) depth := by
  rw [nextFrom]
  split <;> rename_i hread <;> rw [hread]

/-- A walk goes on from what it reads, whatever stands there. -/
theorem walkAt_eq (tree : Tree) (o : Nat) (depth : Int) :
    tree.walkAt o depth =
      match Token.read? (tree.structBlock.drop o) with
      | none => ⟨[], some (.badStructure o)⟩
      | some (.beginNode name) =>
        (tree.walkAt (o + (Token.beginNode name).size) (depth + 1)).prepend ⟨o⟩ (depth + 1)
      | some .finish => ⟨[], none⟩
      | some .endNode =>
        if depth ≤ 0 then ⟨[], none⟩ else tree.walkAt (o + Token.endNode.size) (depth - 1)
      | some .nop => tree.walkAt (o + Token.nop.size) depth
      | some (.property nameOffset value) =>
        tree.walkAt (o + (Token.property nameOffset value).size) depth := by
  have hgoes (size : Nat) (d : Int) : tree.walkAt (o + size) d =
      match nextFrom (o + size) ((tree.structBlock.drop o).drop size) d with
      | .error e => ⟨[], some e⟩
      | .ok none => ⟨[], none⟩
      | .ok (some (found, d)) => (tree.walkFrom found d).prepend found d := by
    rw [walkAt, List.drop_drop]
  rw [walkAt, nextFrom_eq]
  cases hread : Token.read? (tree.structBlock.drop o) with
  | none => rfl
  | some token =>
    cases token with
    | beginNode name =>
      have henter : tree.enter ⟨o⟩ = .ok (name, o + (Token.beginNode name).size) := by
        rw [enter, hread]
      dsimp only
      rw [walkFrom_eq_walkAt _ henter]
    | endNode =>
      dsimp only
      by_cases hdepth : depth ≤ 0
      · rw [if_pos hdepth, if_pos hdepth]
      · rw [if_neg hdepth, if_neg hdepth, hgoes]
    | property nameOffset value => exact (hgoes _ _).symm
    | nop => exact (hgoes _ _).symm
    | finish => rfl

theorem walkAt_skip {t : Token} (h : tokens? (tree.structBlock.drop o) = some (t :: ts))
    (ht : t = .nop ∨ ∃ n v, t = .property n v) (depth : Int) :
    tree.walkAt o depth = tree.walkAt (o + t.size) depth := by
  rw [walkAt_eq, (tokens?_eq_cons_iff.1 h).1]
  rcases ht with rfl | ⟨n, v, rfl⟩
  · rfl
  · rfl

theorem walkAt_endNode (h : tokens? (tree.structBlock.drop o) = some (.endNode :: ts)) (depth : Nat) :
    tree.walkAt o (depth + 1 : Nat) = tree.walkAt (o + Token.endNode.size) depth := by
  have hinside : ¬ ((depth + 1 : Nat) : Int) ≤ 0 := by omega
  have houter : ((depth + 1 : Nat) : Int) - 1 = depth := by omega
  rw [walkAt_eq, (tokens?_eq_cons_iff.1 h).1]
  dsimp only
  rw [if_neg hinside, houter]

theorem walkAt_end (h : tokens? (tree.structBlock.drop o) = some (.endNode :: ts)) :
    tree.walkAt o 0 = ⟨[], none⟩ := by
  rw [walkAt_eq, (tokens?_eq_cons_iff.1 h).1]
  exact if_pos (Int.le_refl 0)

theorem walkAt_beginNode {name : Bytes}
    (h : tokens? (tree.structBlock.drop o) = some (.beginNode name :: ts)) (depth : Int) :
    tree.walkAt o depth =
      (tree.walkAt (o + (Token.beginNode name).size) (depth + 1)).prepend ⟨o⟩ (depth + 1) := by
  rw [walkAt_eq, (tokens?_eq_cons_iff.1 h).1]

theorem nodeName_of_tokens {name : Bytes}
    (h : tokens? (tree.structBlock.drop o) = some (.beginNode name :: ts))
    (htext : Bytes.isText name = true) : tree.nodeName ⟨o⟩ = .ok name := by
  have henter : tree.enter ⟨o⟩ = .ok (name, o + (Token.beginNode name).size) := by
    rw [enter, (tokens?_eq_cons_iff.1 h).1]
  rw [nodeName, henter]
  change (if _ then (pure name : Except TreeError Bytes) else _) = _
  rw [if_pos htext]
  rfl

/-- Whether a node that a walk meets is a child of the node where the walk started, and the one that
`wanted` means. -/
def isChild (tree : Tree) (wanted : Bytes) (n : NodeRef × Int) : Bool :=
  decide (n.2 = 1) && (tree.nodeName n.1).toOption.any (nameMatches · wanted)

end Tree

theorem Forest.le_of_mem_outline {f : Forest} {d : Nat} {entry : Bytes × Nat}
    (h : entry ∈ f.outline d) : d ≤ entry.2 := by
  induction f generalizing d with
  | nil => cases h
  | node name properties children next ihc ihn =>
    rw [Forest.outline, List.mem_cons, List.mem_append] at h
    rcases h with rfl | h | h
    · exact Nat.le_refl _
    · exact Nat.le_of_succ_le (ihc h)
    · exact ihn h

/-! ## Sibling nodes -/

section Siblings

variable {tree : Tree} {strings : Bytes} {ts us : List Token} {ps : List Property} {f : Forest}

theorem BodyOf.walkAt (h : BodyOf strings ts ps) {o : Nat}
    (htokens : tokens? (tree.structBlock.drop o) = some (ts ++ us)) (depth : Int) :
    tree.walkAt o depth = tree.walkAt (o + width ts) depth := by
  induction h generalizing o with
  | nil => rfl
  | nop _ ih =>
    have hrest := (tokens?_eq_cons_iff.1 htokens).2
    rw [List.drop_drop] at hrest
    rw [Tree.walkAt_skip htokens (.inl rfl), ih hrest, width_cons, Nat.add_assoc]
  | property _ _ ih =>
    have hrest := (tokens?_eq_cons_iff.1 htokens).2
    rw [List.drop_drop] at hrest
    rw [Tree.walkAt_skip htokens (.inr ⟨_, _, rfl⟩), ih hrest, width_cons, Nat.add_assoc]

/-- The nodes of a forest with the places at which they begin, as a walk meets them. -/
def met (o : Nat) (ts : List Token) (depth : Nat) (f : Forest) : List (NodeRef × Int) :=
  (begins o ts).zipWith (fun ref entry => (ref, (entry.2 : Int))) (f.outline depth)

theorem tokens?_split_node {name : Bytes} {o : Nat} {body inner rest : List Token}
    (h : tokens? (tree.structBlock.drop o) =
      some (.beginNode name :: (body ++ inner ++ .endNode :: rest) ++ us)) :
    tokens? (tree.structBlock.drop (o + (Token.beginNode name).size)) =
        some (body ++ (inner ++ .endNode :: (rest ++ us))) ∧
      tokens? (tree.structBlock.drop (o + (Token.beginNode name).size + width body)) =
        some (inner ++ .endNode :: (rest ++ us)) ∧
      tokens? (tree.structBlock.drop (o + (Token.beginNode name).size + width body + width inner)) =
        some (.endNode :: (rest ++ us)) ∧
      tokens? (tree.structBlock.drop (o + (Token.beginNode name).size + width body + width inner +
        Token.endNode.size)) = some (rest ++ us) := by
  have hbody := (tokens?_eq_cons_iff.1 h).2
  rw [List.drop_drop] at hbody
  have hbody : tokens? (tree.structBlock.drop (o + (Token.beginNode name).size)) =
      some (body ++ (inner ++ .endNode :: (rest ++ us))) := by
    simpa only [List.append_assoc, List.cons_append, List.append_eq] using hbody
  have hinner := tokens?_drop hbody
  rw [List.drop_drop] at hinner
  have hend := tokens?_drop hinner
  rw [List.drop_drop] at hend
  have hrest := (tokens?_eq_cons_iff.1 hend).2
  rw [List.drop_drop] at hrest
  exact ⟨hbody, hinner, hend, hrest⟩

theorem met_node {name : Bytes} {o d : Nat} {body inner rest : List Token} {children next : Forest}
    (hbody : BodyOf strings body ps) (hinner : SiblingsOf strings inner children) :
    met o (.beginNode name :: (body ++ inner ++ .endNode :: rest)) d
        (.node name ps children next) = (⟨o⟩, (d : Int)) ::
      (met (o + (Token.beginNode name).size + width body) inner (d + 1) children ++
        met (o + (Token.beginNode name).size + width body + width inner + Token.endNode.size)
          rest d next) := by
  have hlength : (begins (o + (Token.beginNode name).size + width body) inner).length =
      (children.outline (d + 1)).length := by
    rw [hinner.length_begins, Forest.length_outline]
  simp only [met, begins, begins_append, hbody.begins_eq_nil, List.nil_append, Forest.outline,
    List.zipWith_cons_cons, width_append, ← Nat.add_assoc]
  rw [List.zipWith_append hlength]

/-- A walk along sibling nodes meets each of them and everything inside. -/
theorem SiblingsOf.walkAt (h : SiblingsOf strings ts f) {o : Nat}
    (htokens : tokens? (tree.structBlock.drop o) = some (ts ++ us)) (d : Nat) :
    tree.walkAt o d = (tree.walkAt (o + width ts) d).after (met o ts (d + 1) f) := by
  induction h generalizing o d us with
  | nil => rfl
  | nop _ ih =>
    have hrest := (tokens?_eq_cons_iff.1 htokens).2
    rw [List.drop_drop] at hrest
    rw [Tree.walkAt_skip htokens (.inl rfl), ih hrest, width_cons, Nat.add_assoc]
    rfl
  | @node name body inner rest ps children next htext hbody hinner hrest ihc ihn =>
    obtain ⟨hinside, hchildren, hend, hnext⟩ := tokens?_split_node htokens
    have hwidth : o + width (.beginNode name :: (body ++ inner ++ .endNode :: rest)) =
        o + (Token.beginNode name).size + width body + width inner + Token.endNode.size +
          width rest := by
      simp only [width_cons, width_append]
      omega
    rw [Tree.walkAt_beginNode htokens, hbody.walkAt hinside, hwidth,
      met_node hbody hinner]
    rw [show (d : Int) + 1 = (d + 1 : Nat) by omega, ihc hchildren, Tree.walkAt_endNode hend,
      ihn hnext]
    simp only [Tree.Walk.prepend, Tree.Walk.after, List.cons_append, List.append_assoc]

theorem le_of_mem_met {o d : Nat} {n : NodeRef × Int} (h : n ∈ met o ts d f) : (d : Int) ≤ n.2 := by
  obtain ⟨ref, entry, hentry, rfl⟩ : ∃ ref entry, entry ∈ f.outline d ∧ (ref, (entry.2 : Int)) = n := by
    rw [met, ← List.map_uncurry_zip_eq_zipWith] at h
    obtain ⟨⟨ref, entry⟩, hmem, rfl⟩ := List.mem_map.1 h
    exact ⟨ref, entry, (List.of_mem_zip hmem).2, rfl⟩
  exact Int.ofNat_le.2 (f.le_of_mem_outline hentry)

theorem mem_of_mem_met {o d : Nat} {n : NodeRef × Int} (h : n ∈ met o ts d f) :
    n.1 ∈ begins o ts := by
  rw [met, ← List.map_uncurry_zip_eq_zipWith] at h
  obtain ⟨⟨ref, entry⟩, hmem, rfl⟩ := List.mem_map.1 h
  exact (List.of_mem_zip hmem).1

/-- Among the nodes of a forest, a search for a child finds the sibling that the name means. -/
theorem SiblingsOf.find?_met (h : SiblingsOf strings ts f) {o : Nat}
    (htokens : tokens? (tree.structBlock.drop o) = some (ts ++ us)) (wanted : Bytes) :
    (met o ts 1 f).find? (tree.isChild wanted) =
      (f.child? wanted).bind fun found => ((begins o ts)[found.1]?).map fun ref => (ref, 1) := by
  induction h generalizing o us with
  | nil => rfl
  | nop _ ih =>
    have hrest := (tokens?_eq_cons_iff.1 htokens).2
    rw [List.drop_drop] at hrest
    exact ih hrest
  | @node name body inner rest ps children next htext hbody hinner hrest ihc ihn =>
    obtain ⟨-, -, -, hnext⟩ := tokens?_split_node htokens
    have hname := Tree.nodeName_of_tokens htokens htext
    have hhead : tree.isChild wanted (⟨o⟩, 1) = nameMatches name wanted := by
      simp [Tree.isChild, hname, Except.toOption]
    rw [met_node hbody hinner, List.find?_cons, begins, begins_append, begins_append,
      hbody.begins_eq_nil]
    simp only [Nat.cast_one, hhead, Forest.child?]
    by_cases hmatch : nameMatches name wanted = true
    · rw [if_pos hmatch, hmatch]
      rfl
    · have hinside : (met (o + (Token.beginNode name).size + width body) inner (1 + 1)
          children).find? (tree.isChild wanted) = none := by
        rw [List.find?_eq_none]
        intro n hn
        have := le_of_mem_met hn
        simp only [Tree.isChild, Bool.and_eq_true, decide_eq_true_eq, not_and]
        omega
      rw [if_neg hmatch, Bool.eq_false_iff.2 hmatch, List.find?_append, hinside, Option.none_or,
        ihn hnext]
      cases next.child? wanted with
      | none => rfl
      | some found =>
        have hlength := hinner.length_begins (o + (Token.beginNode name).size + width body)
        simp only [Option.map_some, Option.bind_some, List.nil_append, begins]
        rw [show children.size + 1 + found.1 = (children.size + found.1) + 1 by omega,
          List.getElem?_cons_succ, List.getElem?_append_right (by omega), hlength,
          Nat.add_sub_cancel_left, width_append, ← Nat.add_assoc]

end Siblings

/-! ## Children -/

namespace Forest

theorem exists_of_child? {f : Forest} {wanted : Bytes} {found : Nat × Forest}
    (h : f.child? wanted = some found) :
    ∃ node, f.node? found.1 = some node ∧ node.children = found.2 ∧
      nameMatches node.name wanted = true := by
  induction f generalizing found with
  | nil => cases h
  | node name properties children next _ ih =>
    rw [child?] at h
    by_cases hmatch : nameMatches name wanted = true
    · rw [if_pos hmatch] at h
      cases h
      exact ⟨_, rfl, rfl, hmatch⟩
    · rw [if_neg hmatch] at h
      obtain ⟨later, hlater, rfl⟩ := Option.map_eq_some_iff.1 h
      obtain ⟨node, hnode, hchildren, hname⟩ := ih hlater
      refine ⟨node, ?_, hchildren, hname⟩
      dsimp only
      rw [show children.size + 1 + later.1 = (children.size + later.1) + 1 by omega, node?,
        if_neg (by omega), Nat.add_sub_cancel_left, hnode]

theorem node?_inner {f : Forest} {i k : Nat} {node : Node} (h : f.node? i = some node)
    (hk : k < node.children.size) : f.node? (i + 1 + k) = node.children.node? k := by
  induction f generalizing i with
  | nil => cases h
  | node name properties children next ihc ihn =>
    cases i with
    | zero =>
      rw [node?, Option.some.injEq] at h
      subst h
      rw [show 0 + 1 + k = k + 1 by omega, node?, if_pos hk]
    | succ i =>
      rw [node?] at h
      by_cases hlt : i < children.size
      · rw [if_pos hlt] at h
        have hinner := ihc h
        have hsome : (children.node? (i + 1 + k)).isSome := by
          rw [hinner, node?_isSome_iff]
          exact hk
        rw [show i + 1 + 1 + k = (i + 1 + k) + 1 by omega, node?,
          if_pos (node?_isSome_iff.1 hsome), hinner]
      · rw [if_neg hlt] at h
        rw [show i + 1 + 1 + k = (i + 1 + k) + 1 by omega, node?, if_neg (by omega),
          show i + 1 + k - children.size = i - children.size + 1 + k by omega, ihn h]

end Forest

namespace Tree.StoredAt

variable {tree : Tree} {doc : Document} {i : Nat} {ref : NodeRef} {node : Node}
  {pre body inner post : List Token}

theorem nodes_getElem? (h : tree.StoredAt doc i ref node pre body inner post) {k : Nat}
    (hk : k < node.children.size) :
    tree.nodes[i + 1 + k]? = (begins (width (pre ++ .beginNode node.name :: body)) inner)[k]? := by
  have hlength := h.cut.innerOf.length_begins (width (pre ++ .beginNode node.name :: body))
  rw [nodes, h.tokens, Option.getD_some, begins_around h.cut.bodyOf,
    List.getElem?_append_right (by rw [h.cut.index]; omega), h.cut.index,
    show i + 1 + k - i = k + 1 by omega, List.getElem?_cons_succ, begins_append,
    List.getElem?_append_left (by omega)]

theorem walkFrom (h : tree.StoredAt doc i ref node pre body inner post) :
    tree.walkFrom ref 0 =
      Walk.after (met (width (pre ++ .beginNode node.name :: body)) inner 1 node.children)
        ⟨[], none⟩ := by
  have hinner := tokens?_drop h.tokens_body
  rw [List.drop_drop] at hinner
  have hend := tokens?_drop hinner
  rw [List.drop_drop] at hend
  have hwidth : width pre + (Token.beginNode node.name).size + width body =
      width (pre ++ .beginNode node.name :: body) := by
    rw [width_append, width_cons, Nat.add_assoc]
  have hwalk := h.cut.innerOf.walkAt hinner 0
  rw [Nat.cast_zero, walkAt_end hend, hwidth] at hwalk
  rw [walkFrom_eq_walkAt 0 h.enter, h.cut.bodyOf.walkAt h.tokens_body, hwidth, hwalk]

theorem child? (h : tree.StoredAt doc i ref node pre body inner post) (hdoc : tree.Stores doc)
    (wanted : Bytes) :
    tree.child? ref wanted =
      .ok ((node.children.child? wanted).bind fun found => tree.nodes[i + 1 + found.1]?) := by
  have hinner := tokens?_drop h.tokens_body
  rw [List.drop_drop, Nat.add_assoc, ← width_cons, ← width_append] at hinner
  have haccept : ∀ n ∈ met (width (pre ++ .beginNode node.name :: body)) inner 1 node.children,
      (if n.2 = 1 then (tree.nodeName n.1).map (nameMatches · wanted) else .ok false) =
        .ok (tree.isChild wanted n) := by
    intro n hn
    obtain ⟨k, hk⟩ := List.mem_iff_getElem?.1 (mem_of_mem_met hn)
    have hlt : k < node.children.size := by
      rw [← h.cut.innerOf.length_begins]
      exact (List.getElem?_eq_some_iff.1 hk).1
    rw [← h.nodes_getElem? hlt] at hk
    obtain ⟨inside, _, _, _, _, hinside⟩ := hdoc.exists_storedAt hk
    rw [isChild, hinside.nodeName]
    by_cases hdepth : n.2 = 1
    · simp [hdepth, Except.map, Except.toOption]
    · simp [hdepth]
  rw [Tree.child?, h.walkFrom, Walk.find?_eq haccept, h.cut.innerOf.find?_met hinner]
  cases hchild : node.children.child? wanted with
  | none => rfl
  | some found =>
    obtain ⟨inside, hinside, -, -⟩ := Forest.exists_of_child? hchild
    have hlt : found.1 < node.children.size := by
      rw [← Forest.node?_isSome_iff, hinside]
      rfl
    rw [Option.bind_some, Option.bind_some, h.nodes_getElem? hlt]
    cases (begins (width (pre ++ .beginNode node.name :: body)) inner)[found.1]? with
    | none => rfl
    | some found => rfl

end Tree.StoredAt

end BootTree
