import BootTree.Proofs.Setup.Passing

/-!
# BootTree.Proofs.Setup.Notices

Telling the operating system several things. In a tree without a limit a seed and a description of
the secure system can be passed on at any time and any number of times, in any order; what is told
again changes nothing. The one thing that can go wrong is the reservation for the secure system: it
is added where a reader does not see it, if an entry that is all zero stands in front.

* `Tree.reservedWith`: the reservations that are seen once one more was wanted.
* `Setup.Told`: a tree after some notices; `Setup.Told.step`, `Setup.Told.run`.
* `Tree.Stores.passes`: any run of notices.
-/

namespace BootTree

open Blob

/-! ## Reservations -/

namespace Tree

variable {tree first after : Tree} {entry : Reservation}

/-- What is seen of the reservations once this one was wanted: it is the last one, unless it was
seen before or an entry that is all zero hides it. -/
def reservedWith (tree : Tree) (entry : Reservation) : List Reservation :=
  if entry ∈ tree.reserved ∨ Reservation.terminator ∈ tree.reservations then tree.reserved
  else tree.reserved ++ [entry]

theorem reserved_append_of_hidden {entries : List Reservation}
    (h : after.reservations = tree.reservations ++ entries)
    (hhidden : Reservation.terminator ∈ tree.reservations) : after.reserved = tree.reserved := by
  rw [reserved, h, List.takeWhile_append, if_neg, reserved]
  intro hlength
  have hall := (List.takeWhile_prefix _).eq_of_length hlength
  exact reserved_eq_iff.1 hall hhidden

theorem reserved_of_reservationsWith (hentry : entry ≠ Reservation.terminator)
    (h : after.reservations = tree.reservationsWith (some entry)) :
    after.reserved = tree.reservedWith entry := by
  rw [reservationsWith] at h
  rw [reservedWith]
  by_cases hseen : entry ∈ tree.reserved
  · rw [if_pos hseen] at h
    rw [if_pos (.inl hseen), reserved, h, reserved]
  · rw [if_neg hseen] at h
    by_cases hhidden : Reservation.terminator ∈ tree.reservations
    · rw [if_pos (.inr hhidden), reserved_append_of_hidden h hhidden]
    · rw [if_neg (not_or.2 ⟨hseen, hhidden⟩), (reserved_append_iff h).2 ⟨hentry, hhidden⟩]

theorem terminator_mem_reservationsWith (hentry : entry ≠ Reservation.terminator) :
    Reservation.terminator ∈ tree.reservationsWith (some entry) ↔
      Reservation.terminator ∈ tree.reservations := by
  rw [reservationsWith]
  split
  · rfl
  · rw [List.mem_append, List.mem_singleton, or_iff_left hentry.symm]

theorem mem_reservedWith_iff : entry ∈ tree.reservedWith entry ↔
    entry ∈ tree.reserved ∨ Reservation.terminator ∉ tree.reservations := by
  rw [reservedWith]
  by_cases hseen : entry ∈ tree.reserved
  · simp [hseen]
  · by_cases hhidden : Reservation.terminator ∈ tree.reservations <;> simp [hseen, hhidden]

theorem reservedWith_congr (hreserved : tree.reserved = first.reserved)
    (hhidden : Reservation.terminator ∈ tree.reservations ↔
      Reservation.terminator ∈ first.reservations) :
    tree.reservedWith entry = first.reservedWith entry := by
  simp only [reservedWith, hreserved, hhidden]

/-- A reservation that was wanted before changes nothing that is seen. -/
theorem reservedWith_eq_reserved (hreserved : tree.reserved = first.reservedWith entry)
    (hhidden : Reservation.terminator ∈ tree.reservations ↔
      Reservation.terminator ∈ first.reservations) : tree.reservedWith entry = tree.reserved := by
  rw [reservedWith, if_pos]
  rw [hreserved, mem_reservedWith_iff, hhidden]
  by_cases hfirst : Reservation.terminator ∈ first.reservations <;> simp [hfirst]

end Tree

namespace Setup

/-! ## Runs -/

/-- Notices that are passed on one after the other. -/
inductive PassedEach : List Notice → Tree → Tree → Prop where
  | nil {tree : Tree} : PassedEach [] tree tree
  | cons {notice : Notice} {rest : List Notice} {tree mid tree' : Tree} :
      notice.Passed tree mid → PassedEach rest mid tree' → PassedEach (notice :: rest) tree tree'

/-- The document after these notices, each of which finds what is there and adds what is not. -/
inductive GainedByEach : List Notice → Document → Document → Prop where
  | nil {doc : Document} : GainedByEach [] doc doc
  | cons {notice : Notice} {rest : List Notice} {doc mid doc' : Document} :
      notice.GainedBy doc mid → GainedByEach rest mid doc' → GainedByEach (notice :: rest) doc doc'

/-- What is seen of the reservations once these notices were passed on. -/
def reservedAfter (first : Tree) (os : SecureOs) (told : List Notice) : List Reservation :=
  if os.reserveMemory = true ∧ Notice.secureOs os ∈ told then first.reservedWith os.reservation
  else first.reserved

/-- A tree to which notices were passed on, none but one seed and one description of the secure
system. -/
structure Told (first : Tree) (seed : Seed) (os : SecureOs) (told : List Notice) (tree : Tree)
    (doc : Document) : Prop where
  roomy : Roomy tree doc
  only : ∀ notice ∈ told, notice = .seed seed ∨ notice = .secureOs os
  isIn : ∀ notice ∈ told, notice.IsIn doc
  hidden : Reservation.terminator ∈ tree.reservations ↔
    Reservation.terminator ∈ first.reservations
  reserved : tree.reserved = reservedAfter first os told

namespace Told

variable {first tree tree' : Tree} {doc doc' : Document} {seed : Seed} {os : SecureOs}
  {told : List Notice} {notice : Notice}

/-- What has been told stays, whatever is told next. -/
theorem isIn_afterwards (h : Told first seed os told tree doc) (hgains : notice.GainedBy doc doc')
    (honly : notice = .seed seed ∨ notice = .secureOs os) :
    ∀ other ∈ told ++ [notice], other.IsIn doc' := by
  intro other hother
  rcases List.mem_append.1 hother with hother | hother
  swap
  · rw [List.mem_singleton.1 hother]
    exact hgains.isIn
  by_cases hsame : other = notice
  · rw [hsame]
    exact hgains.isIn
  · refine (h.isIn other hother).afterwards hgains ?_
    rcases h.only other hother with rfl | rfl <;> rcases honly with rfl | rfl
    · exact absurd rfl hsame
    · simp [Notice.values]
    · simp [Notice.values]
    · exact absurd rfl hsame

theorem reserved_afterwards (h : Told first seed os told tree doc)
    (hos : os.reservation ≠ Reservation.terminator)
    (honly : notice = .seed seed ∨ notice = .secureOs os)
    (hreservations : tree'.reservations = tree.reservationsWith notice.reservation?) :
    tree'.reserved = reservedAfter first os (told ++ [notice]) ∧
      (Reservation.terminator ∈ tree'.reservations ↔
        Reservation.terminator ∈ first.reservations) := by
  have hreserved := h.reserved
  rw [reservedAfter] at hreserved ⊢
  rcases honly with rfl | rfl
  · rw [Notice.reservation?, Tree.reservationsWith] at hreservations
    refine ⟨?_, by rw [hreservations]; exact h.hidden⟩
    rw [Tree.reserved, hreservations, ← Tree.reserved, hreserved]
    simp
  · rw [Notice.reservation?] at hreservations
    by_cases hwanted : os.reserveMemory = true
    · rw [if_pos hwanted] at hreservations
      rw [if_pos ⟨hwanted, by simp⟩, Tree.reserved_of_reservationsWith hos hreservations,
        hreservations, Tree.terminator_mem_reservationsWith hos]
      refine ⟨?_, h.hidden⟩
      by_cases htold : Notice.secureOs os ∈ told
      · rw [if_pos ⟨hwanted, htold⟩] at hreserved
        rw [Tree.reservedWith_eq_reserved hreserved h.hidden, hreserved]
      · rw [if_neg fun hboth => htold hboth.2] at hreserved
        exact Tree.reservedWith_congr hreserved h.hidden
    · rw [if_neg hwanted, Tree.reservationsWith] at hreservations
      rw [if_neg (by simp [hwanted])] at hreserved ⊢
      rw [Tree.reserved, hreservations, ← Tree.reserved]
      exact ⟨hreserved, h.hidden⟩

theorem step (h : Told first seed os told tree doc) (hos : os.reservation ≠ Reservation.terminator)
    (honly : notice = .seed seed ∨ notice = .secureOs os) :
    ∃ tree' doc', notice.Passed tree tree' ∧ notice.GainedBy doc doc' ∧
      Told first seed os (told ++ [notice]) tree' doc' := by
  obtain ⟨tree', doc', hpassed, hroomy, hgains, hreservations⟩ := h.roomy.exists_passed notice
  obtain ⟨hreserved, hhidden⟩ := h.reserved_afterwards hos honly hreservations
  refine ⟨tree', doc', hpassed, hgains, hroomy, ?_, h.isIn_afterwards hgains honly, hhidden,
    hreserved⟩
  intro other hother
  rcases List.mem_append.1 hother with hother | hother
  · exact h.only other hother
  · rw [List.mem_singleton.1 hother]
    exact honly

theorem run (h : Told first seed os told tree doc) (hos : os.reservation ≠ Reservation.terminator)
    {notices : List Notice}
    (honly : ∀ notice ∈ notices, notice = .seed seed ∨ notice = .secureOs os) :
    ∃ tree' doc', PassedEach notices tree tree' ∧ GainedByEach notices doc doc' ∧
      Told first seed os (told ++ notices) tree' doc' := by
  induction notices generalizing told tree doc with
  | nil =>
    rw [List.append_nil]
    exact ⟨tree, doc, .nil, .nil, h⟩
  | cons notice rest ih =>
    obtain ⟨mid, docMid, hpassed, hgains, hmid⟩ := h.step hos (honly notice List.mem_cons_self)
    obtain ⟨tree', doc', hpasses, hgained, htold⟩ :=
      ih hmid fun other hother => honly other (List.mem_cons_of_mem notice hother)
    rw [List.append_assoc] at htold
    exact ⟨tree', doc', .cons hpassed hpasses, .cons hgains hgained, htold⟩

/-- What is told again changes neither the document nor what is seen of the reservations. -/
theorem again (h : Told first seed os told tree doc) (hos : os.reservation ≠ Reservation.terminator)
    (hnotice : notice ∈ told) :
    ∃ tree', notice.Passed tree tree' ∧ tree'.Stores doc ∧ tree'.reserved = tree.reserved := by
  obtain ⟨tree', doc', hpassed, hgains, htold⟩ := h.step hos (h.only notice hnotice)
  obtain rfl : doc' = doc := hgains.unique (h.isIn notice hnotice).gains
  refine ⟨tree', hpassed, htold.roomy.stores, ?_⟩
  have hmem : Notice.secureOs os ∈ told ++ [notice] ↔ Notice.secureOs os ∈ told := by
    rw [List.mem_append, List.mem_singleton, or_iff_left_of_imp]
    rintro rfl
    exact hnotice
  rw [htold.reserved, h.reserved, reservedAfter, reservedAfter]
  simp only [hmem]

end Told

end Setup

open Setup

/-- **Telling the operating system.** In a tree without a limit, whatever its free space, a seed and
a description of the secure system can be passed on in any order and any number of times. Each time
succeeds; the document is as it was apart from the nodes and the values that it lacked, and these
can be read. What is passed on again changes neither the document nor the reservations. The memory
of the secure system is among those that are seen, if it is to be, exactly if it was before or no
entry is all zero. Without random bytes the tree stays as it is. -/
theorem Tree.Stores.passes {tree : Tree} {doc : Document} (h : tree.Stores doc)
    (hunlimited : tree.maxSize = none) (hsize : tree.totalSize < 2 ^ 32) (seed : Seed)
    (os : SecureOs) (hos : os.reservation ≠ Reservation.terminator) :
    (∀ notices, (∀ notice ∈ notices, notice = .seed seed ∨ notice = .secureOs os) →
      ∃ tree' doc', PassedEach notices tree tree' ∧ (∀ other, tree'.Stores other ↔ other = doc') ∧
        GainedByEach notices doc doc' ∧ (∀ notice ∈ notices, notice.IsFound tree') ∧
        tree'.reserved = reservedAfter tree os notices ∧
        (os.reserveMemory = true → .secureOs os ∈ notices →
          (os.reservation ∈ tree'.reserved ↔
            os.reservation ∈ tree.reserved ∨ Reservation.terminator ∉ tree.reservations)) ∧
        ∀ notice ∈ notices, ∃ again, notice.Passed tree' again ∧
          (∀ other, again.Stores other ↔ other = doc') ∧ again.reserved = tree'.reserved) ∧
    ∀ e, (Seed.storeFresh (.error e)).result tree = (.error (.entropy e), tree) := by
  refine ⟨?_, fun e => rfl⟩
  intro notices honly
  have hstart : Told tree seed os [] tree doc := by
    refine ⟨.start h hunlimited hsize, nofun, nofun, Iff.rfl, ?_⟩
    rw [reservedAfter, if_neg (by simp)]
  obtain ⟨tree', doc', hpasses, hgained, htold⟩ := hstart.run hos honly
  rw [List.nil_append] at htold
  refine ⟨tree', doc', hpasses, htold.roomy.stores.stores_iff, hgained, ?_, htold.reserved, ?_, ?_⟩
  · intro notice hnotice
    exact (htold.isIn notice hnotice).isFound htold.roomy.stores
  · intro hwanted hnotice
    rw [htold.reserved, reservedAfter, if_pos ⟨hwanted, hnotice⟩, mem_reservedWith_iff]
  · intro notice hnotice
    obtain ⟨again, hpassed, hstores, hreserved⟩ := htold.again hos hnotice
    exact ⟨again, hpassed, hstores.stores_iff, hreserved⟩

/-! ## A board that knows another seed -/

namespace Setup

/-- A seed of an earlier boot, and a firmware node with a unit address. -/
def knownDocument : Document where
  name := []
  properties := []
  children :=
    .node "firmware@0" [] .nil (.node "chosen" [⟨"kaslr-seed", Bytes.word 1⟩] .nil .nil)

/-- It has no free space. -/
def knownTree : Tree := knownDocument.write (StringList.join ["kaslr-seed"]) 0

def sevens : Seed := .replicate 8 7

def upperMemory : SecureOs := ⟨0xfe000000, 0x2000000, true⟩

end Setup

/-- Both are passed on twice, and the memory is reserved once. -/
theorem Tree.Stores.passes_knownTree : ∃ tree',
    PassedEach [.seed sevens, .secureOs upperMemory, .secureOs upperMemory, .seed sevens] knownTree
      tree' ∧
      (Notice.seed sevens).IsFound tree' ∧ (Notice.secureOs upperMemory).IsFound tree' ∧
      tree'.reserved = [⟨0xfe000000, 0x2000000⟩] := by
  have hstores : knownTree.Stores knownDocument := Document.stores_write (by decide) rfl 0
  obtain ⟨hruns, -⟩ := Tree.Stores.passes hstores rfl (by decide +kernel) sevens upperMemory
    (by decide)
  obtain ⟨tree', doc', hpasses, -, -, hfound, hreserved, -, -⟩ :=
    hruns [.seed sevens, .secureOs upperMemory, .secureOs upperMemory, .seed sevens] (by simp)
  refine ⟨tree', hpasses, hfound _ (by simp), hfound _ (by simp), ?_⟩
  rw [hreserved]
  decide +kernel

/-- An entry that is all zero can be reserved. What is reserved for the secure system afterwards
stands behind it and is not seen. -/
theorem Tree.Stores.passed_reserving_terminator :
    Tree.reserve Reservation.terminator (Tree.empty 128) =
        .ok () (Tree.reserving [Reservation.terminator]) ∧
      (Tree.reserving [Reservation.terminator]).Stores ⟨[], [], .nil⟩ ∧
      (Tree.reserving [Reservation.terminator]).maxSize = none ∧
      (Tree.reserving [Reservation.terminator]).totalSize < 2 ^ 32 ∧
      upperMemory.reserveMemory = true ∧ upperMemory.reservation ≠ Reservation.terminator ∧
      ∃ tree', upperMemory.describe.result (Tree.reserving [Reservation.terminator]) =
        (.ok (), tree') ∧ upperMemory.reservation ∉ tree'.reserved := by
  have hstores : (Tree.reserving [Reservation.terminator]).Stores ⟨[], [], .nil⟩ :=
    Tree.stores_empty 128
  have hsize : (Tree.reserving [Reservation.terminator]).totalSize < 2 ^ 32 := by decide +kernel
  have hentry : upperMemory.reservation ≠ Reservation.terminator := by decide
  refine ⟨by rfl, hstores, rfl, hsize, rfl, hentry, ?_⟩
  obtain ⟨tree', -, hpassed, -, -, hreservations⟩ :=
    (Roomy.start hstores rfl hsize).exists_passed_secureOs upperMemory
  refine ⟨tree', hpassed, ?_⟩
  rw [Tree.reserved_of_reservationsWith hentry hreservations, Tree.mem_reservedWith_iff]
  decide

end BootTree
