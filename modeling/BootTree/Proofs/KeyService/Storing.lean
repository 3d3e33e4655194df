import BootTree.Proofs.Document.Answers
import BootTree.Proofs.Document.Written
import BootTree.Proofs.Fixup.Refusal
import BootTree.Proofs.Image.Atomic
import BootTree.Proofs.KeyService.Fetching

/-!
# BootTree.Proofs.KeyService.Storing

Putting the identity of the key service into the tree. The tree grows by the length of the largest
key, but the property takes more than the bytes of its value: a head of twelve bytes, and the name
wherever the strings block does not have it yet. A tree with little free space then has no room for a
key that was accepted.

* `Tree.KeyFits`: when there is room for a key.
* `Tree.populate_ok_iff`: the key is stored exactly then.
* `Tree.populate_keyTree_full`: a key that is accepted and not stored.
-/

namespace BootTree

open Blob

namespace KeyService

/-- The name of the property that holds the key. -/
def keyName : Bytes := "secretkeeper_public_key"

theorem result_populate_of_error {session : Session} {e : KeyError}
    (hfetch : (session.fetch (Bytes.zeros keyCapacity)).value.1 = .error e) (tree : Tree) :
    (Fixup.result (populate session) tree).1.1 = .error e ∧
      (Fixup.result (populate session) tree).2 = tree := by
  rw [populate, Fixup.result_bind, Fixup.result_reported]
  rcases hvalue : (session.fetch (Bytes.zeros keyCapacity)).value with ⟨fetched, session'⟩
  rw [hvalue] at hfetch
  cases hfetch
  exact ⟨rfl, rfl⟩

theorem result_populate {session : Session} {identity : Identity}
    (hfetch : (session.fetch (Bytes.zeros keyCapacity)).value.1 = .ok identity) (tree : Tree) :
    (Fixup.result (populate session) tree).1.1 = ((storeKey identity.payload).result tree).1 ∧
      (Fixup.result (populate session) tree).2 = ((storeKey identity.payload).result tree).2 := by
  rw [populate, Fixup.result_bind, Fixup.result_reported]
  rcases hvalue : (session.fetch (Bytes.zeros keyCapacity)).value with ⟨fetched, session'⟩
  rw [hvalue] at hfetch
  cases hfetch
  exact ⟨rfl, rfl⟩

end KeyService

open KeyService

namespace Tree

variable {tree : Tree} {doc : Document} {i : Nat} {key : Bytes}

/-- There is room for a key after the tree has grown, or the node has one already, which leaves enough
space for every other. -/
def KeyFits (tree : Tree) (doc : Document) (i : Nat) (key : Bytes) : Prop :=
  (doc.value? i keyName).isSome ∨
    propertyCost key + tree.nameCost keyName ≤ tree.free + keyCapacity

theorem propertyCost_le_of_length (hlength : key.length ≤ keyCapacity) :
    propertyCost key ≤ Token.propertyHead + keyCapacity := by
  simp only [propertyCost, Bytes.alignUp, keyCapacity] at *
  omega

theorem keyCost_le (tree : Tree) (hlength : key.length ≤ keyCapacity) :
    propertyCost key + tree.nameCost keyName ≤ 36 + keyCapacity := by
  have hcost := propertyCost_le_of_length hlength
  have hname := tree.nameCost_le keyName
  have hkeyName : keyName.length = 23 := by decide +kernel
  rw [Token.propertyHead] at hcost
  omega

theorem writeCost_le_iff_keyFits (hlength : key.length ≤ keyCapacity) :
    tree.writeCost (doc.propertiesAt i) keyName key ≤ tree.free + keyCapacity ↔
      tree.KeyFits doc i key := by
  have hcost := propertyCost_le_of_length hlength
  rw [writeCost, KeyFits, Document.value?]
  cases valueOf? (doc.propertiesAt i) keyName with
  | none => simp
  | some old =>
    have hold : Token.propertyHead ≤ propertyCost old := Nat.le_add_right _ _
    simp only [Option.isSome_some, true_or, iff_true]
    omega

theorem Stores.resolve_keyNodePath (hdoc : tree.Stores doc) :
    tree.resolve keyNodePath = .ok ((doc.find? keyNodePath).bind (tree.nodes[·]?)) :=
  hdoc.resolve (by decide +kernel)

/-- A limit that does not let the tree grow is found before anything else. -/
theorem storeKey_of_not_mayGrow (hgrow : ¬ tree.MayGrow keyCapacity) (key : Bytes) :
    ∃ limit, (storeKey key).result tree =
      (.error (.tree (.sizeLimit (tree.totalSize + keyCapacity) limit)), tree) := by
  obtain ⟨limit, -, -, hlimit⟩ := grow_of_not_mayGrow hgrow
  refine ⟨limit, ?_⟩
  have hedit := Attempt.result_mapError_of_error (Fixup.result_edit_of_error hlimit) KeyError.tree
  exact Attempt.result_bind_of_error hedit _

/-- Otherwise the tree grows first, whatever the key; then all depends on the node that it is for. -/
theorem Stores.result_storeKey (hdoc : tree.Stores doc) (hgrow : tree.MayGrow keyCapacity)
    (key : Bytes) :
    (storeKey key).result tree = Attempt.result
      (match (doc.find? keyNodePath).bind (tree.nodes[·]?) with
      | none => throw .missingNode
      | some node => do
        Attempt.mapError .tree (Attempt.edit (Tree.setValue node keyName key))
        Fixup.log .info logTarget s!"stored {key.length} byte secretkeeper key" :
          Attempt KeyError Unit)
      (tree.withFree (tree.free + keyCapacity)) := by
  have hgrown : (tree.withFree (tree.free + keyCapacity)).Stores doc := hdoc
  have hedit : (Attempt.mapError KeyError.tree
      (Attempt.edit (Tree.grow keyCapacity))).result tree =
        (.ok (), tree.withFree (tree.free + keyCapacity)) :=
    Attempt.result_mapError_of_ok (Fixup.result_edit_of_ok (grow_of_mayGrow hgrow)) KeyError.tree
  have hfound : (Attempt.mapError KeyError.tree (Attempt.ask (·.resolve keyNodePath))).result
      (tree.withFree (tree.free + keyCapacity)) =
        (.ok ((doc.find? keyNodePath).bind (tree.nodes[·]?)),
          tree.withFree (tree.free + keyCapacity)) := by
    refine Attempt.result_mapError_of_ok ?_ KeyError.tree
    rw [Attempt.result_ask, hgrown.resolve_keyNodePath]
    rfl
  rw [storeKey, Attempt.result_bind_of_ok hedit, Attempt.result_bind_of_ok hfound]
  rfl

theorem Stores.storeKey_of_find?_eq_none (hdoc : tree.Stores doc)
    (hgrow : tree.MayGrow keyCapacity) (hfind : doc.find? keyNodePath = none) :
    (storeKey key).result tree =
      (.error .missingNode, tree.withFree (tree.free + keyCapacity)) := by
  rw [hdoc.result_storeKey hgrow, hfind]
  rfl

/-- If the node is there, all depends on the write to it. -/
theorem Stores.result_storeKey_of_find? (hdoc : tree.Stores doc) (hgrow : tree.MayGrow keyCapacity)
    (hfind : doc.find? keyNodePath = some i) (key : Bytes) :
    ∃ ref node pre body inner post, tree.nodes[i]? = some ref ∧
      (tree.withFree (tree.free + keyCapacity)).StoredAt doc i ref node pre body inner post ∧
      (tree.withFree (tree.free + keyCapacity)).setCost ref keyName key =
        tree.writeCost (doc.propertiesAt i) keyName key ∧
      (storeKey key).result tree = Attempt.result (do
        Attempt.mapError .tree (Attempt.edit (Tree.setValue ref keyName key))
        Fixup.log .info logTarget s!"stored {key.length} byte secretkeeper key")
        (tree.withFree (tree.free + keyCapacity)) := by
  have hgrown : (tree.withFree (tree.free + keyCapacity)).Stores doc := hdoc
  obtain ⟨ref, node, pre, body, inner, post, -, href, hat⟩ := hgrown.exists_of_find? hfind
  refine ⟨ref, node, pre, body, inner, post, href, hat, ?_, ?_⟩
  · rw [hat.setCost_eq, Document.propertiesAt, hat.properties?_eq]
    rfl
  · have hnode : tree.nodes[i]? = some ref := href
    rw [hdoc.result_storeKey hgrow, hfind, Option.bind_some, hnode]

theorem Stores.storeKey_of_keyFits (hdoc : tree.Stores doc) (hgrow : tree.MayGrow keyCapacity)
    (hsize : tree.totalSize < 2 ^ 32) (hfind : doc.find? keyNodePath = some i)
    (hlength : key.length ≤ keyCapacity) (hfits : tree.KeyFits doc i key) :
    ∃ ref tree', tree.nodes[i]? = some ref ∧ (storeKey key).result tree = (.ok (), tree') ∧
      Updated tree tree' doc i ref keyName (withValue keyName key) := by
  obtain ⟨ref, node, pre, body, inner, post, href, hat, hcost, hresult⟩ :=
    hdoc.result_storeKey_of_find? hgrow hfind key
  have hfree := (writeCost_le_iff_keyFits hlength).2 hfits
  rw [← hcost] at hfree
  have hname : 0 ∉ keyName := by decide +kernel
  have hvalue : key.length < 2 ^ 32 := Nat.lt_of_le_of_lt hlength (by decide)
  have hoffset : tree.nameOffset keyName < 2 ^ 32 := by
    have hle := tree.nameOffset_le keyName
    simp only [totalSize, usedSize] at hsize
    omega
  obtain ⟨tree', hset, hupdated⟩ := hat.setValue_of_le hname hvalue hoffset hfree
  refine ⟨ref, tree', href, ?_, hupdated.ofFree⟩
  rw [hresult]
  have hwrite := Attempt.result_mapError_of_ok (Fixup.result_edit_of_ok hset) KeyError.tree
  exact Attempt.result_bind_of_ok hwrite _

theorem Stores.storeKey_of_not_keyFits (hdoc : tree.Stores doc) (hgrow : tree.MayGrow keyCapacity)
    (hfind : doc.find? keyNodePath = some i) (hlength : key.length ≤ keyCapacity)
    (hfits : ¬ tree.KeyFits doc i key) :
    (storeKey key).result tree =
      (.error (.tree (.noSpace (propertyCost key + tree.nameCost keyName))),
        tree.withFree (tree.free + keyCapacity)) := by
  obtain ⟨ref, node, pre, body, inner, post, -, hat, hcost, hresult⟩ :=
    hdoc.result_storeKey_of_find? hgrow hfind key
  have hlacks := Nat.lt_of_not_le fun hle => hfits ((writeCost_le_iff_keyFits hlength).1 hle)
  rw [← hcost] at hlacks
  have hneeds : tree.writeCost (doc.propertiesAt i) keyName key =
      propertyCost key + tree.nameCost keyName := by
    rw [writeCost]
    cases hold : valueOf? (doc.propertiesAt i) keyName with
    | none => rfl
    | some old => exact absurd (.inl (by rw [Document.value?, hold]; rfl)) hfits
  have hset := hat.setValue_of_lt hlacks
  rw [hcost, hneeds] at hset
  rw [hresult]
  have hwrite := Attempt.result_mapError_of_error (Fixup.result_edit_of_error hset) KeyError.tree
  exact Attempt.result_bind_of_error hwrite _

/-- The node that is found for a key is found again at the same place, and has it. -/
theorem Updated.exists_key {tree' : Tree} {ref : NodeRef}
    (h : Updated tree tree' doc i ref keyName (withValue keyName key)) (hdoc : tree.Stores doc)
    (hfind : doc.find? keyNodePath = some i) (href : tree.nodes[i]? = some ref) :
    ∃ ref, tree.resolve keyNodePath = .ok (some ref) ∧
      tree'.resolve keyNodePath = .ok (some ref) ∧ tree'.value ref keyName = .ok (some key) := by
  have hfind' : (doc.alter (withValue keyName key) id i).find? keyNodePath = some i := by
    rw [Document.find?_alter, hfind]
  refine ⟨ref, ?_, ?_, h.value_eq hdoc href⟩
  · rw [hdoc.resolve_keyNodePath, hfind, Option.bind_some, href]
  · rw [h.stores.resolve_keyNodePath, hfind', Option.bind_some, h.shifted.getElem? href]

/-- **Storing the key.** In a tree without a limit, whatever its free space, a key that was fetched is
stored exactly if there is room for it after the tree has grown, or the node has a key already. There
always is if 36 bytes are free. The node then has the key as its value, and nothing else of the
document changes; otherwise the tree has only grown. -/
theorem populate_ok_iff (hdoc : tree.Stores doc) (hunlimited : tree.maxSize = none)
    (hsize : tree.totalSize < 2 ^ 32) (hfind : doc.find? keyNodePath = some i) {session : Session}
    {identity : Identity}
    (hfetch : (session.fetch (Bytes.zeros keyCapacity)).value.1 = .ok identity) :
    ((Fixup.result (populate session) tree).1.1 = .ok () ↔ tree.KeyFits doc i identity.payload) ∧
    (36 ≤ tree.free → tree.KeyFits doc i identity.payload) ∧
    (tree.KeyFits doc i identity.payload → ∃ ref,
      (Fixup.result (populate session) tree).2.resolve keyNodePath = .ok (some ref) ∧
      (Fixup.result (populate session) tree).2.value ref keyName = .ok (some identity.payload) ∧
      ∀ doc', (Fixup.result (populate session) tree).2.Stores doc' ↔
        doc' = doc.alter (withValue keyName identity.payload) id i) ∧
    (¬ tree.KeyFits doc i identity.payload →
      (Fixup.result (populate session) tree).1.1 =
        .error (.tree (.noSpace (propertyCost identity.payload + tree.nameCost keyName))) ∧
      (Fixup.result (populate session) tree).2 = tree.withFree (tree.free + keyCapacity)) := by
  have hlength : identity.payload.length ≤ keyCapacity := by
    have hle := Session.length_payload_le hfetch
    rwa [Bytes.length_zeros] at hle
  have hgrow : tree.MayGrow keyCapacity := mayGrow_of_unlimited hunlimited
  obtain ⟨houtcome, hafter⟩ := result_populate hfetch tree
  rw [houtcome, hafter]
  refine ⟨⟨?_, ?_⟩, ?_, ?_, ?_⟩
  · intro hok
    by_contra hfits
    rw [hdoc.storeKey_of_not_keyFits hgrow hfind hlength hfits] at hok
    cases hok
  · intro hfits
    obtain ⟨ref, tree', -, hresult, -⟩ := hdoc.storeKey_of_keyFits hgrow hsize hfind hlength hfits
    rw [hresult]
  · intro hfree
    exact .inr (Nat.le_trans (keyCost_le tree hlength) (by rw [keyCapacity]; omega))
  · intro hfits
    obtain ⟨ref, tree', href, hresult, hupdated⟩ :=
      hdoc.storeKey_of_keyFits hgrow hsize hfind hlength hfits
    rw [hresult]
    obtain ⟨ref', -, hresolve, hvalue⟩ := hupdated.exists_key hdoc hfind href
    exact ⟨ref', hresolve, hvalue, hupdated.stores.stores_iff⟩
  · intro hfits
    rw [hdoc.storeKey_of_not_keyFits hgrow hfind hlength hfits]
    exact ⟨rfl, rfl⟩

end Tree

/-! ## The largest key -/

namespace KeyService

/-- The node that the key is for, and nothing else. -/
def keyDocument : Document where
  name := []
  properties := []
  children := .node "avf" [] (.node "reference" [] (.node "avf" [] .nil .nil) .nil) .nil

def keyTree (free : Nat) : Tree := keyDocument.write [] free

theorem stores_keyTree (free : Nat) : (keyTree free).Stores keyDocument :=
  Document.stores_write (by decide) rfl free

theorem find?_keyDocument : keyDocument.find? keyNodePath = some 3 := by decide +kernel

end KeyService

namespace Tree

/-- With 36 free bytes there is room. -/
theorem populate_keyTree_ok : (keyTree 36).Stores keyDocument ∧
    (Fixup.result (populate keySession) (keyTree 36)).1.1 = .ok () := by
  obtain ⟨identity, hfetch, -⟩ := fetch_keySession
  obtain ⟨hiff, hroom, -⟩ := populate_ok_iff (stores_keyTree 36) rfl (by decide +kernel)
    find?_keyDocument hfetch
  exact ⟨stores_keyTree 36, hiff.2 (hroom (Nat.le_refl _))⟩

/-- Without free space a key is refused that is no longer than what the tree grows by. -/
theorem populate_keyTree_full : (keyTree 0).Stores keyDocument ∧ (keyTree 0).maxSize = none ∧
    (keyTree 0).totalSize < 2 ^ 32 ∧ keyDocument.find? keyNodePath = some 3 ∧
    keySession.Delivers largestKey ∧ largestKey.length ≤ keyCapacity ∧
    (Fixup.result (populate keySession) (keyTree 0)).1.1 = .error (.tree (.noSpace 164)) := by
  obtain ⟨identity, hfetch, hpayload⟩ := fetch_keySession
  have hfits : ¬ (keyTree 0).KeyFits keyDocument 3 identity.payload := by
    rw [hpayload]
    rintro (hthere | hroom)
    · exact absurd hthere (by decide +kernel)
    · exact absurd hroom (by decide +kernel)
  have hlength : identity.payload.length ≤ keyCapacity := by
    rw [hpayload, length_largestKey]
  refine ⟨stores_keyTree 0, rfl, by decide +kernel, find?_keyDocument, ⟨rfl, rfl⟩,
    Nat.le_of_eq length_largestKey, ?_⟩
  rw [(result_populate hfetch _).1,
    (stores_keyTree 0).storeKey_of_not_keyFits (mayGrow_of_unlimited rfl) find?_keyDocument hlength
      hfits, hpayload]
  decide +kernel

end Tree

end BootTree
