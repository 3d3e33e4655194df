import BootTree.Proofs.KeyService.Storing

/-!
# BootTree.Proofs.KeyService.Leaving

What is left of the tree when the identity of the key service is put into it, with or without a limit
of its size, whatever the service answers. Fetching does not touch the tree; growing fails without
changing it; and behind that the only edit is one that is made as a whole or not at all.

* `Tree.HasKey`: a tree after a key was put into it, compared with the one before.
* `Tree.Stores.storeKey_cases`: refused by the limit, only grown, or with the key.
* `Tree.PopulateEnds`: not fetched, or one of these.
* `Tree.populate_leaves`: what each end leaves.
-/

namespace BootTree

open KeyService

namespace Tree

variable {tree : Tree} {doc : Document} {key : Bytes}

/-- The node that is there for the key has it, and nothing else of the document has changed. -/
structure HasKey (tree after : Tree) (doc : Document) (key : Bytes) : Prop where
  document : ∃ i, doc.find? keyNodePath = some i ∧
    ∀ doc', after.Stores doc' ↔ doc' = doc.alter (withValue keyName key) id i
  value : ∃ ref, tree.resolve keyNodePath = .ok (some ref) ∧
    after.resolve keyNodePath = .ok (some ref) ∧ after.value ref keyName = .ok (some key)
  frame : tree.SameFrame after

theorem Stores.storeKey_cases (hdoc : tree.Stores doc) (hsize : tree.totalSize < 2 ^ 32)
    (hlength : key.length ≤ keyCapacity) :
    (∃ needed limit, (storeKey key).result tree = (.error (.tree (.sizeLimit needed limit)), tree)) ∨
      (∃ e, (∀ needed limit, e ≠ .tree (.sizeLimit needed limit)) ∧ tree.MayGrow keyCapacity ∧
        (storeKey key).result tree = (.error e, tree.withFree (tree.free + keyCapacity))) ∨
      ∃ after, (storeKey key).result tree = (.ok (), after) ∧ tree.HasKey after doc key := by
  by_cases hgrow : tree.MayGrow keyCapacity
  · cases hfind : doc.find? keyNodePath with
    | none =>
      exact .inr (.inl ⟨_, by simp, hgrow, hdoc.storeKey_of_find?_eq_none hgrow hfind⟩)
    | some i =>
      by_cases hfits : tree.KeyFits doc i key
      · obtain ⟨ref, after, href, hresult, hupdated⟩ :=
          hdoc.storeKey_of_keyFits hgrow hsize hfind hlength hfits
        exact .inr (.inr ⟨after, hresult, ⟨i, hfind, hupdated.stores.stores_iff⟩,
          hupdated.exists_key hdoc hfind href,
          ⟨hupdated.bootCpu, hupdated.reservations, hupdated.maxSize⟩⟩)
      · exact .inr (.inl ⟨_, by simp, hgrow,
          hdoc.storeKey_of_not_keyFits hgrow hfind hlength hfits⟩)
  · obtain ⟨limit, hresult⟩ := storeKey_of_not_mayGrow hgrow key
    exact .inl ⟨_, limit, hresult⟩

/-- How putting the identity into a tree ends, and what tree it leaves. -/
inductive PopulateEnds (tree : Tree) (doc : Document) (session : Session) :
    Except KeyError Unit → Tree → Prop where
  | unfetched {e : KeyError} : (session.fetch (Bytes.zeros keyCapacity)).value.1 = .error e →
      PopulateEnds tree doc session (.error e) tree
  | refused {identity : Identity} {needed limit : Nat} :
      (session.fetch (Bytes.zeros keyCapacity)).value.1 = .ok identity →
      PopulateEnds tree doc session (.error (.tree (.sizeLimit needed limit))) tree
  | grown {identity : Identity} {e : KeyError} :
      (session.fetch (Bytes.zeros keyCapacity)).value.1 = .ok identity →
      (∀ needed limit, e ≠ .tree (.sizeLimit needed limit)) → tree.MayGrow keyCapacity →
      PopulateEnds tree doc session (.error e) (tree.withFree (tree.free + keyCapacity))
  | stored {identity : Identity} {after : Tree} :
      (session.fetch (Bytes.zeros keyCapacity)).value.1 = .ok identity →
      tree.HasKey after doc identity.payload → PopulateEnds tree doc session (.ok ()) after

theorem Stores.populate_ends (hdoc : tree.Stores doc) (hsize : tree.totalSize < 2 ^ 32)
    (session : Session) :
    PopulateEnds tree doc session (Fixup.result (populate session) tree).1.1
      (Fixup.result (populate session) tree).2 := by
  cases hfetch : (session.fetch (Bytes.zeros keyCapacity)).value.1 with
  | error e =>
    obtain ⟨houtcome, hafter⟩ := result_populate_of_error hfetch tree
    rw [houtcome, hafter]
    exact .unfetched hfetch
  | ok identity =>
    obtain ⟨houtcome, hafter⟩ := result_populate hfetch tree
    have hlength := Session.length_payload_le hfetch
    rw [Bytes.length_zeros] at hlength
    rw [houtcome, hafter]
    rcases hdoc.storeKey_cases hsize hlength with
      ⟨needed, limit, hresult⟩ | ⟨e, hne, hgrow, hresult⟩ | ⟨after, hresult, hkey⟩
    · rw [hresult]
      exact .refused hfetch
    · rw [hresult]
      exact .grown hfetch hne hgrow
    · rw [hresult]
      exact .stored hfetch hkey

/-- **What is left of the tree.** If fetching fails or the limit refuses, the tree is as it was. If
anything else fails, it has grown and is the same otherwise. If nothing fails, the node has what was
stored of the answer behind the header, as many bytes as the transport says that there are. -/
theorem populate_leaves (hdoc : tree.Stores doc) (hsize : tree.totalSize < 2 ^ 32)
    (session : Session) :
    (∀ e, (session.fetch (Bytes.zeros keyCapacity)).value.1 = .error e →
      (Fixup.result (populate session) tree).1.1 = .error e ∧
        (Fixup.result (populate session) tree).2 = tree) ∧
    (∀ needed limit,
      (Fixup.result (populate session) tree).1.1 = .error (.tree (.sizeLimit needed limit)) →
        (Fixup.result (populate session) tree).2 = tree) ∧
    (∀ identity e, (session.fetch (Bytes.zeros keyCapacity)).value.1 = .ok identity →
      (Fixup.result (populate session) tree).1.1 = .error e →
      (∀ needed limit, e ≠ .tree (.sizeLimit needed limit)) →
        grow keyCapacity tree = .ok () (Fixup.result (populate session) tree).2 ∧
        (Fixup.result (populate session) tree).2.totalSize = tree.totalSize + 128 ∧
        ∀ doc', (Fixup.result (populate session) tree).2.Stores doc' ↔ doc' = doc) ∧
    ((Fixup.result (populate session) tree).1.1 = .ok () →
      ∃ reply key, session.Accepted (Bytes.zeros keyCapacity) reply key.length ∧
        key = ((reply.memory (Bytes.zeros keyCapacity)).drop 8).take (reply.length - 8) ∧
        (∀ message, reply = .scattered message keyCapacity → key = message.drop 8) ∧
        tree.HasKey (Fixup.result (populate session) tree).2 doc key) := by
  have hends := hdoc.populate_ends hsize session
  generalize (Fixup.result (populate session) tree).1.1 = outcome at hends ⊢
  generalize (Fixup.result (populate session) tree).2 = after at hends ⊢
  cases hends with
  | unfetched hfetch =>
    rw [hfetch]
    refine ⟨?_, fun _ _ _ => rfl, nofun, nofun⟩
    intro e he
    exact ⟨congrArg Except.error (Except.error.inj he), rfl⟩
  | refused hfetch =>
    rw [hfetch]
    refine ⟨nofun, fun _ _ _ => rfl, ?_, nofun⟩
    rintro _ _ _ ⟨⟩ hne
    exact absurd rfl (hne _ _)
  | grown hfetch hne hgrow =>
    have hgrown : (tree.withFree (tree.free + keyCapacity)).Stores doc := hdoc
    rw [hfetch]
    refine ⟨nofun, ?_, ?_, nofun⟩
    · rintro needed limit ⟨⟩
      exact absurd rfl (hne needed limit)
    · intro _ _ _ _ _
      exact ⟨grow_of_mayGrow hgrow, totalSize_grown, hgrown.stores_iff⟩
  | @stored identity after hfetch hkey =>
    obtain ⟨hlength, -⟩ := Session.length_payload hfetch
    obtain ⟨reply, haccepted, hbuffer⟩ := Session.fetch_eq_ok_iff.1 hfetch
    rw [hfetch]
    refine ⟨nofun, nofun, nofun, ?_⟩
    intro _
    refine ⟨reply, identity.payload, hlength ▸ haccepted, ?_, ?_, hkey⟩
    · rw [Identity.payload, hbuffer, haccepted.length_eq]
      rfl
    · rintro message rfl
      exact (Session.payload_of_scattered haccepted.answers hfetch).2

/-- With 36 free bytes the key is stored. A tree that must not grow is left as it was, although it
has the same space, and one that has none is only grown. -/
theorem populate_leaves_keyTree :
    (keyTree 36).HasKey (Fixup.result (populate keySession) (keyTree 36)).2 keyDocument largestKey ∧
    (Fixup.result (populate keySession) ((keyTree 36).withMaxSize 200)).2 =
      (keyTree 36).withMaxSize 200 ∧
    grow keyCapacity (keyTree 0) = .ok () (Fixup.result (populate keySession) (keyTree 0)).2 := by
  have hlimit : (Fixup.result (populate keySession) ((keyTree 36).withMaxSize 200)).1.1 =
      .error (.tree (.sizeLimit 280 200)) := by decide +kernel
  have hfull : (Fixup.result (populate keySession) (keyTree 0)).1.1 =
      .error (.tree (.noSpace 164)) := by decide +kernel
  have hok : (Fixup.result (populate keySession) (keyTree 36)).1.1 = .ok () := by decide +kernel
  obtain ⟨identity, hfetch, -⟩ := fetch_keySession
  obtain ⟨-, -, -, hstored⟩ := populate_leaves (stores_keyTree 36) (by decide +kernel) keySession
  obtain ⟨-, hunchanged, -⟩ := populate_leaves
    (show ((keyTree 36).withMaxSize 200).Stores keyDocument from stores_keyTree 36)
    (by decide +kernel) keySession
  obtain ⟨-, -, hgrown, -⟩ := populate_leaves (stores_keyTree 0) (by decide +kernel) keySession
  obtain ⟨reply, key, -, -, -, hkey⟩ := hstored hok
  have hresolve : (Fixup.result (populate keySession) (keyTree 36)).2.resolve keyNodePath =
      .ok (some ⟨32⟩) := by decide +kernel
  have hvalue : (Fixup.result (populate keySession) (keyTree 36)).2.value ⟨32⟩ keyName =
      .ok (some largestKey) := by decide +kernel
  obtain rfl : key = largestKey := by
    obtain ⟨ref, -, href, hread⟩ := hkey.value
    obtain rfl : ref = ⟨32⟩ := by simpa [hresolve] using href.symm
    simpa [hvalue] using hread.symm
  obtain ⟨hgrow, -⟩ := hgrown identity _ hfetch hfull (by simp)
  exact ⟨hkey, hunchanged _ _ hlimit, hgrow⟩

end Tree

end BootTree
