import Mathlib
import BootTree.Document.Grammar

/-!
# BootTree.Proofs.Blob.Tokens

Sequences of tokens as bytes. Reading a token looks at the bytes of that token only, so the tokens
of a block can be cut apart and put together at token boundaries, whatever the padding holds.

* `Token.read?_eq_some_iff`: a token is read exactly where its bytes stand and its padding fits.
* `tokens?_append`, `tokens?_take`, `tokens?_drop`: the tokens of a block and of its parts.
* `tokens?_splice`: replacing the bytes of some tokens by the bytes of others.
-/

namespace BootTree

open Blob

namespace Blob

namespace Token

/-- The bytes of a token without the padding behind it. -/
def core : Token → Bytes
  | beginNode name => Bytes.word 1 ++ (name ++ [0])
  | endNode => Bytes.word 2
  | property nameOffset value =>
    Bytes.word 3 ++ (Bytes.word (UInt32.ofNat value.length) ++ (Bytes.word nameOffset ++ value))
  | nop => Bytes.word 4
  | finish => Bytes.word 9

theorem size_eq_alignUp (t : Token) : t.size = Bytes.alignUp t.core.length := by
  cases t with
  | beginNode name => simp [size, core]
  | property nameOffset value =>
    simp only [size, core, propertyHead, List.length_append, Bytes.length_word]
    congr 1
    omega
  | endNode | nop | finish => rfl

theorem length_core_le (t : Token) : t.core.length ≤ t.size := by
  rw [size_eq_alignUp]; exact Bytes.le_alignUp _

theorem unpadded?_core_append {t : Token} (h : t.IsStorable) (rest : Bytes) :
    unpadded? (t.core ++ rest) = some t := by
  cases t with
  | beginNode name =>
    have htail : name ++ [0] ++ rest = name ++ 0 :: rest := by simp
    rw [core, List.append_assoc, unpadded?_word_append, htail]
    change (if _ then some (beginNode _) else none) = _
    rw [if_pos (by simp), takeWhile_ne_zero h]
  | property nameOffset value =>
    have hlen : (UInt32.ofNat value.length).toNat = value.length := by
      rw [UInt32.toNat_ofNat', Nat.mod_eq_of_lt h]
    have hdrop : (Bytes.word (UInt32.ofNat value.length) ++ (Bytes.word nameOffset ++
        (value ++ rest))).drop 8 = value ++ rest := by
      rw [← List.append_assoc]; exact List.drop_left' rfl
    have hname : (Bytes.word (UInt32.ofNat value.length) ++ (Bytes.word nameOffset ++
        (value ++ rest))).drop 4 = Bytes.word nameOffset ++ (value ++ rest) :=
      List.drop_left' (Bytes.length_word _)
    simp only [core, List.append_assoc]
    rw [unpadded?_word_append]
    change (do
      let length ← Bytes.word? _
      let nameOffset ← Bytes.word? _
      if _ then some (property nameOffset _) else none) = _
    rw [hdrop, hname, Bytes.word?_word_append, Bytes.word?_word_append]
    simp only [Option.bind_eq_bind, Option.bind_some, hlen, List.take_left', if_true]
  | endNode | nop | finish => rw [core, unpadded?_word_append]; rfl

theorem takeWhile_zero_isPrefix_of_mem {bytes : Bytes} (h : 0 ∈ bytes) :
    bytes.takeWhile (· ≠ 0) ++ [0] <+: bytes := by
  induction bytes with
  | nil => cases h
  | cons b bs ih =>
    by_cases hb : b = 0
    · subst hb; simp
    · have hbs : 0 ∈ bs := (List.mem_cons.1 h).resolve_left fun h0 => hb h0.symm
      simpa [List.takeWhile_cons, hb] using ih hbs

theorem not_mem_takeWhile (bytes : Bytes) : 0 ∉ bytes.takeWhile (· ≠ 0) := by
  intro h
  have hall := List.all_eq_true.1 (@List.all_takeWhile _ (fun b : UInt8 => decide (b ≠ 0)) bytes)
  simpa using hall 0 h

/-- The name of a node ends at the first zero byte. -/
theorem core_beginNode_isPrefix {tail : Bytes} (hzero : 0 ∈ tail) :
    core (.beginNode (tail.takeWhile (· ≠ 0))) <+: Bytes.word 1 ++ tail :=
  (List.prefix_append_right_inj _).2 (takeWhile_zero_isPrefix_of_mem hzero)

/-- A property is two words, and as many bytes as the first of them says. -/
theorem core_property_isPrefix {tail : Bytes} {length nameOffset : UInt32}
    (hlength : Bytes.word? tail = some length) (hname : Bytes.word? (tail.drop 4) = some nameOffset)
    (hvalue : ((tail.drop 8).take length.toNat).length = length.toNat) :
    core (.property nameOffset ((tail.drop 8).take length.toNat)) <+: Bytes.word 3 ++ tail := by
  have hofNat : UInt32.ofNat ((tail.drop 8).take length.toNat).length = length := by
    rw [hvalue, UInt32.ofNat_toNat]
  have htail : tail = Bytes.word length ++ (Bytes.word nameOffset ++ tail.drop 8) := by
    have hfront := Bytes.eq_word_append_of_word? hlength
    have hbehind := Bytes.eq_word_append_of_word? hname
    rw [List.drop_drop] at hbehind
    rw [← hbehind, ← hfront]
  rw [core, hofNat]
  conv => rhs; rw [htail]
  simp only [List.prefix_append_right_inj]
  exact List.take_prefix _ _

theorem core_of_unpadded? {bytes : Bytes} {t : Token} (h : unpadded? bytes = some t) :
    t.IsStorable ∧ t.core <+: bytes := by
  obtain ⟨kind, hkind⟩ : ∃ kind, Bytes.word? bytes = some kind := by
    cases hw : Bytes.word? bytes with
    | none => simp [unpadded?, hw] at h
    | some kind => exact ⟨kind, rfl⟩
  have hbytes := Bytes.eq_word_append_of_word? hkind
  rw [hbytes, unpadded?_word_append] at h
  rw [hbytes]
  generalize bytes.drop 4 = tail at h
  split at h
  · rename_i hk
    have hone : kind = 1 := UInt32.toNat_inj.1 hk
    split at h
    · rename_i hzero
      cases h
      exact ⟨not_mem_takeWhile tail, hone ▸ core_beginNode_isPrefix hzero⟩
    · cases h
  · rename_i hk
    have htwo : kind = 2 := UInt32.toNat_inj.1 hk
    cases h
    exact ⟨trivial, htwo ▸ List.prefix_append _ _⟩
  · rename_i hk
    have hthree : kind = 3 := UInt32.toNat_inj.1 hk
    simp only [Option.bind_eq_bind, Option.bind_eq_some_iff] at h
    obtain ⟨length, hlength, nameOffset, hname, hvalue⟩ := h
    split at hvalue
    · rename_i hlen
      cases hvalue
      refine ⟨by rw [IsStorable, hlen]; exact length.toNat_lt, ?_⟩
      exact hthree ▸ core_property_isPrefix hlength hname hlen
    · cases hvalue
  · rename_i hk
    have hfour : kind = 4 := UInt32.toNat_inj.1 hk
    cases h
    exact ⟨trivial, hfour ▸ List.prefix_append _ _⟩
  · rename_i hk
    have hnine : kind = 9 := UInt32.toNat_inj.1 hk
    cases h
    exact ⟨trivial, hnine ▸ List.prefix_append _ _⟩
  · cases h

theorem read?_eq_some_iff {bytes : Bytes} {t : Token} :
    read? bytes = some t ↔ t.IsStorable ∧ t.core <+: bytes ∧ t.size ≤ bytes.length := by
  constructor
  · intro h
    obtain ⟨hstorable, hcore⟩ := core_of_unpadded? (Option.filter_eq_some_iff.1 h).1
    exact ⟨hstorable, hcore, size_le_of_read? h⟩
  · rintro ⟨hstorable, ⟨rest, rfl⟩, hsize⟩
    rw [read?, unpadded?_core_append hstorable, Option.filter_some, if_pos (decide_eq_true hsize)]

theorem isStorable_of_read? {bytes : Bytes} {t : Token} (h : read? bytes = some t) :
    t.IsStorable :=
  (read?_eq_some_iff.1 h).1

theorem read?_append {bytes : Bytes} {t : Token} (h : read? bytes = some t) (rest : Bytes) :
    read? (bytes ++ rest) = some t := by
  obtain ⟨hstorable, hcore, hsize⟩ := read?_eq_some_iff.1 h
  refine read?_eq_some_iff.2 ⟨hstorable, hcore.trans (List.prefix_append _ _), ?_⟩
  rw [List.length_append]; omega

theorem read?_take {bytes : Bytes} {t : Token} (h : read? bytes = some t) {n : Nat}
    (hn : t.size ≤ n) : read? (bytes.take n) = some t := by
  obtain ⟨hstorable, hcore, hsize⟩ := read?_eq_some_iff.1 h
  have := length_core_le t
  refine read?_eq_some_iff.2 ⟨hstorable, List.prefix_take_iff.2 ⟨hcore, by omega⟩, ?_⟩
  rw [List.length_take]; omega

/-- The token in front of the place where bytes are replaced. -/
theorem read?_splice {bytes new : Bytes} {t : Token} {place old : Nat} (h : read? bytes = some t)
    (hle : t.size ≤ place) : read? (Bytes.splice bytes place old new) = some t := by
  rw [Bytes.splice, List.append_assoc]
  exact read?_append (read?_take h hle) _

end Token

end Blob

theorem Bytes.drop_splice {bytes new : Bytes} {offset place old : Nat} (hle : offset ≤ place)
    (hin : place ≤ bytes.length) : (splice bytes place old new).drop offset =
      splice (bytes.drop offset) (place - offset) old new := by
  have htake : offset ≤ (bytes.take place).length := by
    rw [List.length_take]
    omega
  rw [splice, splice, List.append_assoc, List.append_assoc, List.drop_append_of_le_length htake,
    List.drop_take, List.drop_drop]
  congr 3
  omega

/-! ## The tokens of a block -/

/-- The number of bytes that some tokens take. -/
def width (tokens : List Token) : Nat := (tokens.map Token.size).sum

@[simp] theorem width_nil : width [] = 0 := rfl

@[simp] theorem width_cons (t : Token) (ts : List Token) : width (t :: ts) = t.size + width ts := by
  simp [width]

@[simp] theorem width_append (s t : List Token) : width (s ++ t) = width s + width t := by
  simp [width]

theorem width_mod (ts : List Token) : width ts % 4 = 0 := by
  induction ts with
  | nil => rfl
  | cons t ts ih =>
    have := Token.size_mod t
    rw [width_cons]; omega

theorem tokens?_eq_nil_iff {bytes : Bytes} : tokens? bytes = some [] ↔ bytes = [] := by
  constructor
  · intro h
    rw [tokens?] at h
    split at h
    · assumption
    · split at h
      · cases h
      · simp at h
  · rintro rfl; simp [tokens?]

theorem tokens?_eq_cons_iff {bytes : Bytes} {t : Token} {ts : List Token} :
    tokens? bytes = some (t :: ts) ↔
      Token.read? bytes = some t ∧ tokens? (bytes.drop t.size) = some ts := by
  constructor
  · intro h
    rw [tokens?] at h
    split at h
    · simp at h
    · split at h
      · cases h
      · rename_i token hread
        obtain ⟨rest, hrest, hcons⟩ := Option.map_eq_some_iff.1 h
        cases hcons
        exact ⟨hread, hrest⟩
  · rintro ⟨hread, hrest⟩
    have hne : bytes ≠ [] := by
      rintro rfl
      have := Token.size_le_of_read? hread
      have := t.four_le_size
      simp at *; omega
    rw [tokens?, if_neg hne]
    split
    · rename_i heq; rw [hread] at heq; cases heq
    · rename_i heq
      rw [hread] at heq
      cases heq
      rw [hrest]; rfl

theorem length_of_tokens? {bytes : Bytes} {ts : List Token} (h : tokens? bytes = some ts) :
    bytes.length = width ts := by
  induction ts generalizing bytes with
  | nil => rw [tokens?_eq_nil_iff.1 h]; rfl
  | cons t ts ih =>
    obtain ⟨hread, hrest⟩ := tokens?_eq_cons_iff.1 h
    have := Token.size_le_of_read? hread
    have := ih hrest
    rw [List.length_drop] at this
    rw [width_cons]; omega

theorem isStorable_of_tokens? {bytes : Bytes} {ts : List Token} (h : tokens? bytes = some ts) :
    ∀ t ∈ ts, t.IsStorable := by
  induction ts generalizing bytes with
  | nil => simp
  | cons t ts ih =>
    obtain ⟨hread, hrest⟩ := tokens?_eq_cons_iff.1 h
    intro t' ht'
    rcases List.mem_cons.1 ht' with rfl | ht'
    · exact Token.isStorable_of_read? hread
    · exact ih hrest t' ht'

theorem tokens?_append {a b : Bytes} {s t : List Token} (ha : tokens? a = some s)
    (hb : tokens? b = some t) : tokens? (a ++ b) = some (s ++ t) := by
  induction s generalizing a with
  | nil => rw [tokens?_eq_nil_iff.1 ha]; simpa using hb
  | cons x xs ih =>
    obtain ⟨hread, hrest⟩ := tokens?_eq_cons_iff.1 ha
    refine tokens?_eq_cons_iff.2 ⟨Token.read?_append hread b, ?_⟩
    rw [List.drop_append_of_le_length (Token.size_le_of_read? hread)]
    exact ih hrest

theorem tokens?_take {bytes : Bytes} {s t : List Token} (h : tokens? bytes = some (s ++ t)) :
    tokens? (bytes.take (width s)) = some s := by
  induction s generalizing bytes with
  | nil => simp [tokens?_eq_nil_iff]
  | cons x xs ih =>
    obtain ⟨hread, hrest⟩ := tokens?_eq_cons_iff.1 h
    refine tokens?_eq_cons_iff.2 ⟨Token.read?_take hread (by simp), ?_⟩
    rw [List.drop_take, width_cons, Nat.add_sub_cancel_left]
    exact ih hrest

theorem tokens?_drop {bytes : Bytes} {s t : List Token} (h : tokens? bytes = some (s ++ t)) :
    tokens? (bytes.drop (width s)) = some t := by
  induction s generalizing bytes with
  | nil => simpa using h
  | cons x xs ih =>
    obtain ⟨-, hrest⟩ := tokens?_eq_cons_iff.1 h
    rw [width_cons, ← List.drop_drop]
    exact ih hrest

/-- The token behind some others is read where they end. -/
theorem read?_drop_of_tokens? {bytes : Bytes} {s u : List Token} {t : Token}
    (h : tokens? bytes = some (s ++ t :: u)) : Token.read? (bytes.drop (width s)) = some t :=
  (tokens?_eq_cons_iff.1 (tokens?_drop h)).1

theorem tokens?_splice {bytes new : Bytes} {s mid n u : List Token}
    (h : tokens? bytes = some (s ++ mid ++ u)) (hnew : tokens? new = some n) :
    tokens? (Bytes.splice bytes (width s) (width mid) new) = some (s ++ n ++ u) := by
  have hfront : tokens? (bytes.take (width s)) = some s := by
    rw [List.append_assoc] at h; exact tokens?_take h
  have hbehind : tokens? (bytes.drop (width s + width mid)) = some u := by
    rw [← width_append]; exact tokens?_drop h
  exact tokens?_append (tokens?_append hfront hnew) hbehind

theorem tokens?_encode_singleton {t : Token} (h : t.IsStorable) : tokens? t.encode = some [t] := by
  simpa using @tokens?_encode [t] (by simpa using h)

end BootTree
