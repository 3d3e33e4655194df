import BootTree.Bytes

/-!
# BootTree.Blob.Token

The structure block is a sequence of tokens, each starting on a four byte boundary: a node begins,
a property with its value, a node ends, nothing, and the end of the block.

* `Token.encode` — the bytes of a token, with zero bytes up to the next boundary.
* `Token.size` — how many bytes a token takes.
* `Token.read?` — the token at the front of some bytes. It fails on an unknown token and on one
  whose name or value does not end inside the bytes; what it returns always fits
  (`size_le_of_read?`), and what was written is read back (`read?_encode_append`).
-/

namespace BootTree

namespace Blob

inductive Token where
  | beginNode (name : Bytes)
  | endNode
  /-- A property: where its name starts in the strings block, and its value. -/
  | property (nameOffset : UInt32) (value : Bytes)
  | nop
  | finish
  deriving DecidableEq, Repr

namespace Token

def propertyHead : Nat := 12

def size : Token → Nat
  | beginNode name => Bytes.alignUp (4 + (name.length + 1))
  | property _ value => Bytes.alignUp (propertyHead + value.length)
  | endNode | nop | finish => 4

def encode : Token → Bytes
  | beginNode name => Bytes.word 1 ++ Bytes.padded (name ++ [0])
  | endNode => Bytes.word 2
  | property nameOffset value =>
    Bytes.word 3 ++ Bytes.word (UInt32.ofNat value.length) ++ Bytes.word nameOffset ++
      Bytes.padded value
  | nop => Bytes.word 4
  | finish => Bytes.word 9

theorem four_le_size (t : Token) : 4 ≤ t.size := by
  cases t with
  | beginNode name =>
    have := Bytes.le_alignUp (4 + (name.length + 1)); simp only [size]; omega
  | property _ value =>
    have := Bytes.le_alignUp (propertyHead + value.length)
    simp only [size]; unfold propertyHead at *; omega
  | endNode | nop | finish => exact Nat.le_refl 4

theorem size_mod (t : Token) : t.size % 4 = 0 := by
  cases t with
  | beginNode | property => exact Bytes.alignUp_mod _
  | endNode | nop | finish => rfl

@[simp] theorem length_encode (t : Token) : t.encode.length = t.size := by
  cases t with
  | beginNode name => simp [encode, size, Bytes.alignUp_add]
  | property nameOffset value => simp [encode, size, propertyHead, Bytes.alignUp_add]; omega
  | endNode | nop | finish => rfl

/-- The token at the front of the bytes, whether or not the padding behind it is there. -/
def unpadded? (bytes : Bytes) : Option Token := do
  let kind ← Bytes.word? bytes
  let tail := bytes.drop 4
  match kind.toNat with
  | 1 => if 0 ∈ tail then some (.beginNode (tail.takeWhile (· ≠ 0))) else none
  | 2 => some .endNode
  | 3 => do
    let length ← Bytes.word? tail
    let nameOffset ← Bytes.word? (tail.drop 4)
    let value := (tail.drop 8).take length.toNat
    if value.length = length.toNat then some (.property nameOffset value) else none
  | 4 => some .nop
  | 9 => some .finish
  | _ => none

/-- The token at the front of the bytes, if all of it is there. -/
def read? (bytes : Bytes) : Option Token :=
  (unpadded? bytes).filter fun t => t.size ≤ bytes.length

theorem size_le_of_read? {bytes : Bytes} {t : Token} (h : read? bytes = some t) :
    t.size ≤ bytes.length := by
  simpa using (Option.filter_eq_some_iff.1 h).2

/-- The tokens that can be stored: a name ends at its first zero byte, and the length of a value is
a word. -/
def IsStorable : Token → Prop
  | beginNode name => 0 ∉ name
  | property _ value => value.length < 0x100000000
  | endNode | nop | finish => True

theorem takeWhile_ne_zero {name : Bytes} (h : 0 ∉ name) (rest : Bytes) :
    (name ++ 0 :: rest).takeWhile (· ≠ 0) = name := by
  induction name with
  | nil => simp
  | cons b bs ih =>
    simp only [List.mem_cons, not_or] at h
    have hb : b ≠ 0 := fun hb => h.1 hb.symm
    simp only [List.cons_append, List.takeWhile_cons, decide_eq_true hb, if_true, ih h.2]

theorem unpadded?_word_append {w : UInt32} {tail : Bytes} :
    unpadded? (Bytes.word w ++ tail) =
      match w.toNat with
      | 1 => if 0 ∈ tail then some (.beginNode (tail.takeWhile (· ≠ 0))) else none
      | 2 => some .endNode
      | 3 => do
        let length ← Bytes.word? tail
        let nameOffset ← Bytes.word? (tail.drop 4)
        let value := (tail.drop 8).take length.toNat
        if value.length = length.toNat then some (.property nameOffset value) else none
      | 4 => some .nop
      | 9 => some .finish
      | _ => none := by
  have hdrop : (Bytes.word w ++ tail).drop 4 = tail := List.drop_left' (Bytes.length_word w)
  simp only [unpadded?, Bytes.word?_word_append, hdrop, Option.bind_eq_bind, Option.bind_some]

theorem read?_encode_append {t : Token} (h : t.IsStorable) (rest : Bytes) :
    read? (t.encode ++ rest) = some t := by
  have hfit : t.size ≤ (t.encode ++ rest).length := by simp
  suffices hread : unpadded? (t.encode ++ rest) = some t by
    rw [read?, hread, Option.filter_some, if_pos (decide_eq_true hfit)]
  cases t with
  | beginNode name =>
    have htail : Bytes.padded (name ++ [0]) ++ rest =
        name ++ 0 :: (Bytes.zeros (Bytes.alignUp (name ++ [0]).length - (name ++ [0]).length)
          ++ rest) := by simp [Bytes.padded, List.append_assoc]
    rw [encode, List.append_assoc, unpadded?_word_append, htail]
    change (if _ then some (beginNode _) else none) = _
    rw [if_pos (by simp), takeWhile_ne_zero h]
  | property nameOffset value =>
    have hlen : (UInt32.ofNat value.length).toNat = value.length := by
      rw [UInt32.toNat_ofNat', Nat.mod_eq_of_lt h]
    have h₁ : (Bytes.word (UInt32.ofNat value.length) ++ (Bytes.word nameOffset ++
        (Bytes.padded value ++ rest))).drop 4 = Bytes.word nameOffset ++
          (Bytes.padded value ++ rest) := List.drop_left' (Bytes.length_word _)
    have h₂ : (Bytes.word (UInt32.ofNat value.length) ++ (Bytes.word nameOffset ++
        (Bytes.padded value ++ rest))).drop 8 = Bytes.padded value ++ rest := by
      rw [← List.append_assoc]; exact List.drop_left' rfl
    have h₃ : (Bytes.padded value ++ rest).take value.length = value := by
      rw [Bytes.padded, List.append_assoc]; exact List.take_left' rfl
    rw [encode, List.append_assoc, List.append_assoc, List.append_assoc, unpadded?_word_append]
    change (do
      let length ← Bytes.word? _
      let nameOffset ← Bytes.word? _
      if _ then some (property nameOffset _) else none) = _
    rw [h₁, h₂, Bytes.word?_word_append, Bytes.word?_word_append]
    simp only [Option.bind_eq_bind, Option.bind_some, hlen, h₃, if_true]
  | endNode | nop | finish => rw [encode, unpadded?_word_append]; rfl

theorem length_drop_lt_of_read? {bytes : Bytes} {t : Token} (h : read? bytes = some t) :
    (bytes.drop t.size).length < bytes.length := by
  have := size_le_of_read? h
  have := four_le_size t
  simp only [List.length_drop]; omega

end Token

end Blob

end BootTree
