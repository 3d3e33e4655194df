import BootTree.Proofs.Image.Editing
import BootTree.Proofs.Tree.Editing
import BootTree.Proofs.Tree.Walking

/-!
# BootTree.Proofs.Tree.Behind

What stands behind a node, in blocks of any bytes. A walk depends on the bytes in front of it only
through the places of the nodes it meets. Setting a property replaces bytes among the properties of one
node; a walk from that node passes over all of these, so it meets the same nodes before and after.

* `Tree.SameFrom`: entries of walks through two trees from which on everything is the same.
* `Tree.walkFrom_sameFrom`: walks from such entries meet such entries.
* `Tree.ahead`: what a walk that stops at a node has in front of it; `Tree.pairwise_ahead`.
* `Tree.KeepsBehind`: an edit that leaves all that stands behind a node.
* `Tree.keepsBehind_setValue`: setting a property of the node is one.
-/

namespace BootTree

open Blob

namespace Tree

variable {tree tree' tree'' : Tree} {o o' : Nat} {node : NodeRef}

/-! ## Walks through two trees -/

/-- Entries of walks through two trees: they have one depth, and everything from them on is the
same. -/
def SameFrom (tree tree' : Tree) (entry entry' : NodeRef × Int) : Prop :=
  entry'.2 = entry.2 ∧
    tree'.structBlock.drop entry'.1.offset = tree.structBlock.drop entry.1.offset

theorem SameFrom.trans {a b c : NodeRef × Int} (h : tree.SameFrom tree' a b)
    (h' : tree'.SameFrom tree'' b c) : tree.SameFrom tree'' a c :=
  ⟨h'.1.trans h.1, h'.2.trans h.2⟩

theorem forall₂_sameFrom (tree : Tree) (entries : List (NodeRef × Int)) :
    List.Forall₂ (tree.SameFrom tree) entries entries :=
  List.forall₂_same.2 fun _ _ => ⟨rfl, rfl⟩

theorem forall₂_trans {α β γ : Type} {R : α → β → Prop} {S : β → γ → Prop} {T : α → γ → Prop}
    (hRS : ∀ a b c, R a b → S b c → T a c) {l : List α} {m : List β} {n : List γ}
    (h : List.Forall₂ R l m) (h' : List.Forall₂ S m n) : List.Forall₂ T l n := by
  induction h generalizing n with
  | nil =>
    cases h'
    exact .nil
  | cons hab _ ih =>
    cases h' with
    | cons hbc hrest => exact .cons (hRS _ _ _ hab hbc) (ih hrest)

/-- Where the same bytes stand, the same nodes are met. -/
theorem walkAt_sameFrom (h : tree'.structBlock.drop o' = tree.structBlock.drop o) (depth : Int) :
    List.Forall₂ (tree.SameFrom tree') (tree.walkAt o depth).nodes (tree'.walkAt o' depth).nodes := by
  induction hlength : (tree.structBlock.drop o).length using Nat.strongRecOn generalizing o o' depth with
  | ind n ih =>
    rw [walkAt_eq tree, walkAt_eq tree', h]
    cases hread : Token.read? (tree.structBlock.drop o) with
    | none => exact .nil
    | some token =>
      have hrest (d : Int) : List.Forall₂ (tree.SameFrom tree') (tree.walkAt (o + token.size) d).nodes
          (tree'.walkAt (o' + token.size) d).nodes := by
        refine ih _ ?_ ?_ d rfl
        · rw [← hlength, ← List.drop_drop]
          exact Token.length_drop_lt_of_read? hread
        · rw [← List.drop_drop, ← List.drop_drop, h]
      cases token with
      | beginNode name => exact .cons ⟨rfl, h⟩ (hrest _)
      | endNode =>
        dsimp only
        split
        · exact .nil
        · exact hrest _
      | property nameOffset value => exact hrest _
      | nop => exact hrest _
      | finish => exact .nil

theorem walkFrom_of_enter_error {e : TreeError} (h : tree.enter node = .error e) (depth : Int) :
    tree.walkFrom node depth = ⟨[], some e⟩ := by
  have hnext : tree.next node depth = .error e := by
    rw [next, h]
  rw [walkFrom]
  split <;> rename_i heq <;> rw [hnext] at heq <;> cases heq
  rfl

/-- Behind entries from which on everything is the same, the same nodes are met. -/
theorem walkFrom_sameFrom {entry entry' : NodeRef × Int} (h : tree.SameFrom tree' entry entry') :
    List.Forall₂ (tree.SameFrom tree') (tree.walkFrom entry.1 entry.2).nodes
      (tree'.walkFrom entry'.1 entry'.2).nodes := by
  obtain ⟨hdepth, hsame⟩ := h
  rw [hdepth]
  cases henter : tree.enter entry.1 with
  | ok entered =>
    obtain ⟨name, o⟩ := entered
    obtain ⟨hread, rfl⟩ := read?_of_enter henter
    have henter' := enter_of_read? (hsame ▸ hread)
    rw [walkFrom_eq_walkAt _ henter, walkFrom_eq_walkAt _ henter']
    apply walkAt_sameFrom
    rw [← List.drop_drop, ← List.drop_drop, hsame]
  | error e =>
    cases henter' : tree'.enter entry'.1 with
    | ok entered =>
      have hread := (read?_of_enter henter').1
      rw [hsame] at hread
      rw [enter_of_read? hread] at henter
      cases henter
    | error e' =>
      rw [walkFrom_of_enter_error henter, walkFrom_of_enter_error henter']
      exact .nil

/-- What a walk meets behind a node that it has met is what a walk from there meets. -/
theorem walkFrom_of_nodes_eq {depth : Int} {before rest : List (NodeRef × Int)} {entry : NodeRef × Int}
    (h : (tree.walkFrom node depth).nodes = before ++ entry :: rest) :
    rest = (tree.walkFrom entry.1 entry.2).nodes := by
  fun_induction walkFrom tree node depth generalizing before with
  | case1 => simp at h
  | case2 => simp at h
  | case3 node depth found d hnext ih =>
    rw [Walk.prepend] at h
    cases before with
    | nil =>
      cases h
      rfl
    | cons first before =>
      obtain ⟨-, hrest⟩ := List.cons.inj h
      exact ih hrest

/-! ## What is ahead -/

/-- The node that a walk is at, if it has not come to its end, and all that it would meet from
there. -/
def ahead (tree : Tree) : Option (NodeRef × Int) → List (NodeRef × Int)
  | none => []
  | some (node, depth) => (node, depth) :: (tree.walkFrom node depth).nodes

theorem ahead_of_next {cursor : Option (NodeRef × Int)} {depth : Int}
    (h : tree.next node depth = .ok cursor) :
    tree.ahead cursor = (tree.walkFrom node depth).nodes := by
  rw [walkFrom]
  split <;> rename_i heq <;> rw [h] at heq <;> cases heq
  · rfl
  · rfl

/-- From a node that was searched for among those behind another one, all that is ahead is behind
that one too. -/
theorem ahead_suffix_of_find? {cursor : Option (NodeRef × Int)} {depth : Int}
    {accept : NodeRef → Int → Except TreeError Bool}
    (h : (tree.walkFrom node depth).find? accept = .ok cursor) :
    tree.ahead cursor <:+ (tree.walkFrom node depth).nodes := by
  have hgo (nodes : List (NodeRef × Int)) (found : NodeRef × Int)
      (h : Walk.find?.go (tree.walkFrom node depth) accept nodes = .ok (some found)) :
      found ∈ nodes := by
    fun_induction Walk.find?.go (tree.walkFrom node depth) accept nodes with
    | case1 | case2 | case3 => cases h
    | case4 =>
      cases h
      exact List.mem_cons_self
    | case5 _ _ _ _ ih => exact List.mem_cons_of_mem _ (ih h)
  cases cursor with
  | none => exact List.nil_suffix
  | some entry =>
    obtain ⟨before, rest, hnodes⟩ := List.append_of_mem (hgo _ _ h)
    rw [ahead, ← walkFrom_of_nodes_eq hnodes, hnodes]
    exact List.suffix_append before _

theorem lt_of_mem_walkFrom {entry : NodeRef × Int} {depth : Int}
    (h : entry ∈ (tree.walkFrom node depth).nodes) : node.offset < entry.1.offset := by
  fun_induction walkFrom tree node depth with
  | case1 | case2 => cases h
  | case3 node depth found d hnext ih =>
    have hbounds := bounds_of_next hnext
    rcases List.mem_cons.1 h with rfl | hmem
    · exact hbounds.1
    · exact Nat.lt_trans hbounds.1 (ih hmem)

/-- Every step of a walk leads further towards the end of the block. -/
theorem pairwise_walkFrom (node : NodeRef) (depth : Int) :
    (tree.walkFrom node depth).nodes.Pairwise fun a b => a.1.offset < b.1.offset := by
  fun_induction walkFrom tree node depth with
  | case1 | case2 => exact .nil
  | case3 node depth found d hnext ih => exact .cons (fun _ hmem => lt_of_mem_walkFrom hmem) ih

theorem pairwise_ahead (cursor : Option (NodeRef × Int)) :
    (tree.ahead cursor).Pairwise fun a b => a.1.offset < b.1.offset := by
  cases cursor with
  | none => exact .nil
  | some entry => exact .cons (fun _ hmem => lt_of_mem_walkFrom hmem) (pairwise_walkFrom _ _)

theorem length_walkFrom_le (node : NodeRef) (depth : Int) :
    (tree.walkFrom node depth).nodes.length ≤ tree.structBlock.length - node.offset := by
  fun_induction walkFrom tree node depth with
  | case1 | case2 => exact Nat.zero_le _
  | case3 node depth found d hnext ih =>
    have hbounds := bounds_of_next hnext
    rw [Walk.prepend, List.length_cons]
    omega

end Tree

/-! ## Properties and empty tokens -/

/-- A token that may stand among the properties of a node. -/
def Blob.Token.InBody (t : Token) : Prop := t = .nop ∨ ∃ nameOffset value, t = .property nameOffset value

/-- Bytes that consist of such tokens. -/
def IsBody (bytes : Bytes) : Prop := ∃ ts, tokens? bytes = some ts ∧ ∀ t ∈ ts, t.InBody

theorem isBody_nil : IsBody [] := ⟨[], tokens?_eq_nil_iff.2 rfl, by simp⟩

theorem isBody_encode {t : Token} (ht : t.InBody) (h : t.IsStorable) : IsBody t.encode :=
  ⟨[t], tokens?_encode_singleton h, by simpa using ht⟩

theorem isBody_take_add {bytes : Bytes} {t : Token} {k : Nat} (hread : Token.read? bytes = some t)
    (ht : t.InBody) (h : IsBody ((bytes.drop t.size).take k)) : IsBody (bytes.take (t.size + k)) := by
  obtain ⟨ts, htokens, hbody⟩ := h
  refine ⟨t :: ts, tokens?_eq_cons_iff.2 ⟨Token.read?_take hread (Nat.le_add_right _ _), ?_⟩, ?_⟩
  · rw [List.drop_take, Nat.add_sub_cancel_left]
    exact htokens
  · rintro u (_ | ⟨_, hu⟩)
    · exact ht
    · exact hbody u hu

/-- From the places behind a token to those behind what stands in front of it. -/
theorem isBody_step {tokens : Bytes} {t : Token} {o place : Nat}
    (hread : Token.read? tokens = some t) (ht : t.InBody)
    (h : o + t.size ≤ place ∧ IsBody ((tokens.drop t.size).take (place - (o + t.size)))) :
    o ≤ place ∧ IsBody (tokens.take (place - o)) := by
  obtain ⟨hle, hbody⟩ := h
  have hall := isBody_take_add hread ht hbody
  have hsplit : t.size + (place - (o + t.size)) = place - o := by omega
  rw [hsplit] at hall
  exact ⟨by omega, hall⟩

theorem isBody_take_size {bytes : Bytes} {t : Token} (hread : Token.read? bytes = some t)
    (ht : t.InBody) : IsBody (bytes.take t.size) :=
  isBody_take_add hread ht (by rw [List.take_zero]; exact isBody_nil)

namespace Tree

variable {tree tree' tree'' : Tree} {o : Nat} {node : NodeRef}

/-- A walk passes over properties and empty tokens. -/
theorem walkAt_body {k : Nat} (hbody : IsBody ((tree.structBlock.drop o).take k))
    (hk : o + k ≤ tree.structBlock.length) (depth : Int) :
    tree.walkAt o depth = tree.walkAt (o + k) depth := by
  obtain ⟨ts, htokens, hbody⟩ := hbody
  induction ts generalizing o k with
  | nil =>
    have hzero := length_of_tokens? htokens
    rw [List.length_take, List.length_drop, width_nil] at hzero
    obtain rfl : k = 0 := by omega
    rfl
  | cons t ts ih =>
    obtain ⟨hread, hrest⟩ := tokens?_eq_cons_iff.1 htokens
    have hsize := Token.size_le_of_read? hread
    rw [List.length_take] at hsize
    have hread' := Token.read?_append hread ((tree.structBlock.drop o).drop k)
    rw [List.take_append_drop] at hread'
    rw [List.drop_take, List.drop_drop] at hrest
    have hgoes := ih (by omega) hrest fun u hu => hbody u (List.mem_cons_of_mem _ hu)
    have hplace : o + t.size + (k - t.size) = o + k := by omega
    rw [hplace] at hgoes
    rw [← hgoes, walkAt_eq, hread']
    rcases hbody t List.mem_cons_self with rfl | ⟨nameOffset, value, rfl⟩
    · rfl
    · rfl

/-- All that is in front of a property which was looked for and found is passed over. -/
theorem isBody_of_propertyFrom {strings name tokens : Bytes} {found : Located}
    (h : propertyFrom strings name o tokens = .ok (some found)) :
    o ≤ found.offset ∧ IsBody (tokens.take (found.offset - o)) := by
  fun_induction propertyFrom strings name o tokens with
  | case1 | case2 => cases h
  | case3 o tokens nameOffset value hread hname =>
    cases h
    dsimp only
    rw [Nat.sub_self, List.take_zero]
    exact ⟨Nat.le_refl _, isBody_nil⟩
  | case4 o tokens nameOffset value hread other hname hother size ih =>
    exact isBody_step hread (.inr ⟨_, _, rfl⟩) (ih h)
  | case5 o tokens hread ih => exact isBody_step hread (.inl rfl) (ih h)
  | case6 => cases h

theorem isBody_of_propertiesEndFrom {tokens : Bytes} {place : Nat}
    (h : propertiesEndFrom o tokens = .ok place) :
    o ≤ place ∧ IsBody (tokens.take (place - o)) := by
  fun_induction propertiesEndFrom o tokens with
  | case1 => cases h
  | case2 o tokens nameOffset value hread size ih => exact isBody_step hread (.inr ⟨_, _, rfl⟩) (ih h)
  | case3 o tokens hread ih => exact isBody_step hread (.inl rfl) (ih h)
  | case4 =>
    cases h
    rw [Nat.sub_self, List.take_zero]
    exact ⟨Nat.le_refl _, isBody_nil⟩

/-! ## Edits of a node -/

/-- What stands behind the properties of a node is the same in two trees, so walks from the node meet
the same nodes. -/
def KeepsBehind (tree tree' : Tree) (node : NodeRef) : Prop :=
  ∀ depth, List.Forall₂ (tree.SameFrom tree') (tree.walkFrom node depth).nodes
    (tree'.walkFrom node depth).nodes

theorem KeepsBehind.of_structBlock (h : tree'.structBlock = tree.structBlock) (node : NodeRef) :
    tree.KeepsBehind tree' node :=
  fun depth =>
    have hsame : tree.SameFrom tree' (node, depth) (node, depth) := ⟨rfl, by rw [h]⟩
    walkFrom_sameFrom hsame

theorem KeepsBehind.trans (h : tree.KeepsBehind tree' node) (h' : tree'.KeepsBehind tree'' node) :
    tree.KeepsBehind tree'' node :=
  fun depth => forall₂_trans (fun _ _ _ hab hbc => hab.trans hbc) (h depth) (h' depth)

/-- Bytes behind the name of a node are replaced. -/
theorem enter_splice {name new : Bytes} {place old : Nat} (henter : tree.enter node = .ok (name, o))
    (hle : o ≤ place) (hin : place ≤ tree.structBlock.length)
    (hspliced : tree'.structBlock = Bytes.splice tree.structBlock place old new) :
    tree'.enter node = .ok (name, o) := by
  obtain ⟨hread, rfl⟩ := read?_of_enter henter
  apply enter_of_read?
  rw [hspliced, Bytes.drop_splice (by omega) hin]
  exact Token.read?_splice hread (by omega)

/-- Bytes among the properties of a node are replaced by other properties. -/
theorem keepsBehind_splice {name new : Bytes} {place old : Nat} (henter : tree.enter node = .ok (name, o))
    (hle : o ≤ place) (hin : place + old ≤ tree.structBlock.length)
    (hfront : IsBody ((tree.structBlock.drop o).take (place - o)))
    (hold : IsBody ((tree.structBlock.drop place).take old)) (hnew : IsBody new)
    (hspliced : tree'.structBlock = Bytes.splice tree.structBlock place old new) :
    tree.KeepsBehind tree' node := by
  have henter' := enter_splice henter hle (by omega) hspliced
  have hplace : (tree.structBlock.take place).length = place := by
    rw [List.length_take]
    omega
  have hblock : tree'.structBlock =
      tree.structBlock.take place ++ (new ++ tree.structBlock.drop (place + old)) := by
    rw [hspliced, Bytes.splice, List.append_assoc]
  have htake : tree'.structBlock.take place = tree.structBlock.take place := by
    rw [hblock]
    exact List.take_left' hplace
  have hdrop : tree'.structBlock.drop place = new ++ tree.structBlock.drop (place + old) := by
    rw [hblock]
    exact List.drop_left' hplace
  have hbehind : tree'.structBlock.drop (place + new.length) = tree.structBlock.drop (place + old) := by
    rw [← List.drop_drop, hdrop, List.drop_left]
  have hlength : place + new.length ≤ tree'.structBlock.length := by
    rw [hblock, List.length_append, List.length_append, hplace]
    omega
  have hfront' := hfront
  rw [← List.drop_take, ← htake, List.drop_take] at hfront'
  have hnew' : IsBody ((tree'.structBlock.drop place).take new.length) := by
    rw [hdrop, List.take_left]
    exact hnew
  intro depth
  rw [walkFrom_eq_walkAt _ henter, walkFrom_eq_walkAt _ henter',
    walkAt_body hfront (by omega), walkAt_body hfront' (by omega), Nat.add_sub_of_le hle,
    walkAt_body hold hin, walkAt_body hnew' hlength]
  exact walkAt_sameFrom hbehind depth

/-- Setting a property changes nothing behind the properties of its node. -/
theorem keepsBehind_setValue {name value : Bytes} (hvalue : value.length < 2 ^ 32)
    (h : setValue node name value tree = .ok () tree') : tree.KeepsBehind tree' node := by
  have hproperty (nameOffset : UInt32) : IsBody (Token.property nameOffset value).encode :=
    isBody_encode (.inr ⟨_, _, rfl⟩) hvalue
  rw [setValue_eq] at h
  cases hfound : tree.property? node name with
  | error e =>
    rw [hfound] at h
    cases h
  | ok found =>
    rw [hfound] at h
    cases found with
    | some old =>
      dsimp only at h
      rw [spliceStruct_eq] at h
      split at h
      · cases h
      · cases h
        have hread := read?_of_property? hfound
        have hin := le_of_property? hfound
        unfold property? at hfound
        split at hfound
        · cases hfound
        · rename_i henter
          obtain ⟨hle, hfront⟩ := isBody_of_propertyFrom hfound
          exact keepsBehind_splice henter hle hin hfront
            (isBody_take_size hread (.inr ⟨_, _, rfl⟩)) (hproperty _) rfl
    | none =>
      dsimp only at h
      rw [appendProperty_eq] at h
      split at h
      · cases h
      · cases hplace : tree.propertiesEnd node with
        | error e =>
          rw [hplace] at h
          cases h
        | ok place =>
          rw [hplace] at h
          cases h
          have hin : place + 0 ≤ tree.structBlock.length := le_of_propertiesEnd hplace
          unfold propertiesEnd at hplace
          split at hplace
          · cases hplace
          · rename_i henter
            obtain ⟨hle, hfront⟩ := isBody_of_propertiesEndFrom hplace
            refine keepsBehind_splice henter hle hin hfront ?_
              (hproperty (UInt32.ofNat (tree.nameOffset name))) ?_
            · rw [List.take_zero]
              exact isBody_nil
            · rw [spliced, structBlock_withName]

end Tree

end BootTree
