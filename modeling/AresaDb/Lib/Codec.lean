import AresaDb.Lib.ByteOrder

/-! # Self-delimiting codecs

A codec writes a value as bytes and reads it back off the front of a byte string, leaving what
follows untouched.  That one law composes: pairs, options, sequences and records inherit it from
their parts, so a format is described once and its round trip comes with it.

The primitives are those of a fixed-width little-endian format: bytes, 64-bit words, one-byte
option tags, 32-bit enumeration tags, and sequences behind a 64-bit length.  A sequence longer
than any machine word can count cannot exist in memory; such a length is spelled behind an
all-ones word, so that the law holds of every list. -/

namespace ByteOrder

/-- A writer and a reader that inverts it in front of every continuation. -/
structure Codec (α : Type) where
  put : α → Bytes
  get : Bytes → Option (α × Bytes)
  get_put : ∀ a rest, get (put a ++ rest) = some (a, rest)

/-- A writer and a reader of whole rows. -/
structure RowCodec (α : Type) where
  encode : α → Bytes
  decode : Bytes → Option α
  decode_encode : ∀ a, decode (encode a) = some a

theorem RowCodec.encode_injective {α : Type} (c : RowCodec α) : Function.Injective c.encode := by
  intro a b h
  have hb := c.decode_encode b
  rw [← h, c.decode_encode] at hb
  exact Option.some.inj hb

namespace Codec

variable {α β : Type}

/-- Read a whole row, ignoring what follows the value. -/
def toRow (c : Codec α) : RowCodec α where
  encode := c.put
  decode b := (c.get b).map Prod.fst
  decode_encode := by
    intro a
    have h := c.get_put a []
    rw [List.append_nil] at h
    simp [h]

/-! ### Primitives -/

def byte : Codec UInt8 where
  put b := [b]
  get
    | [] => none
    | b :: rest => some (b, rest)
  get_put _ _ := rfl

/-- A 64-bit word, least significant byte first. -/
def word : Codec UInt64 where
  put n := (beBytes n).reverse
  get b := if b.length < 8 then none else some (ofBeBytes (b.take 8).reverse, b.drop 8)
  get_put := by
    intro n rest
    have hlen : (beBytes n).reverse.length = 8 := by simp
    have htake : ((beBytes n).reverse ++ rest).take 8 = (beBytes n).reverse := by
      rw [← hlen, List.take_left]
    have hdrop : ((beBytes n).reverse ++ rest).drop 8 = rest := by
      rw [← hlen, List.drop_left]
    rw [if_neg (by simp), htake, hdrop, List.reverse_reverse, ofBeBytes_beBytes]

/-! ### Composition -/

def pair (c : Codec α) (d : Codec β) : Codec (α × β) where
  put x := c.put x.1 ++ d.put x.2
  get b := do
    let (x, b) ← c.get b
    let (y, b) ← d.get b
    return ((x, y), b)
  get_put := by
    intro x rest
    simp [List.append_assoc, c.get_put, d.get_put]

/-- Read a value of another type through a conversion that inverts the one used for writing. -/
def iso (c : Codec α) (f : β → α) (g : α → β) (h : ∀ x, g (f x) = x) : Codec β where
  put x := c.put (f x)
  get b := (c.get b).map fun p => (g p.1, p.2)
  get_put := by
    intro x rest
    simp [c.get_put, h]

/-- An option behind a tag byte. -/
def option (c : Codec α) : Codec (Option α) where
  put
    | none => [0]
    | some a => 1 :: c.put a
  get
    | 0 :: b => some (none, b)
    | 1 :: b => (c.get b).map fun p => (some p.1, p.2)
    | _ => none
  get_put := by
    intro x rest
    cases x with
    | none => rfl
    | some a => simp [c.get_put]

/-! ### Sequences -/

/-- How a length is spelled: a word below `top`, or the word `top` and a run of ones ended by a
zero. -/
def putLength (top : UInt64) (n : ℕ) : Bytes :=
  if n < top.toNat then word.put (UInt64.ofNat n)
  else word.put top ++ (List.replicate (n - top.toNat) 1 ++ [0])

/-- The length of the run of ones in front of a zero. -/
def getRun : Bytes → Option (ℕ × Bytes)
  | 0 :: b => some (0, b)
  | 1 :: b => (getRun b).map fun p => (p.1 + 1, p.2)
  | _ => none

def getLength (top : UInt64) (b : Bytes) : Option (ℕ × Bytes) := do
  let (n, b) ← word.get b
  if n = top then (getRun b).map fun p => (top.toNat + p.1, p.2) else return (n.toNat, b)

theorem getRun_replicate (n : ℕ) (rest : Bytes) :
    getRun (List.replicate n 1 ++ 0 :: rest) = some (n, rest) := by
  induction n with
  | zero => rfl
  | succ n ih => simp [List.replicate_succ, getRun, ih]

theorem getLength_putLength (top : UInt64) (n : ℕ) (rest : Bytes) :
    getLength top (putLength top n ++ rest) = some (n, rest) := by
  unfold putLength getLength
  have htop := top.toNat_lt
  by_cases h : n < top.toNat
  · have hn : (UInt64.ofNat n).toNat = n := by
      rw [UInt64.toNat_ofNat']
      exact Nat.mod_eq_of_lt (lt_trans h htop)
    have hne : UInt64.ofNat n ≠ top := by
      intro he
      rw [he] at hn
      omega
    rw [if_pos h, word.get_put]
    simp only [Option.bind_eq_bind, Option.bind_some, if_neg hne, hn]
    rfl
  · have hle : top.toNat + (n - top.toNat) = n := by omega
    rw [if_neg h, List.append_assoc, word.get_put]
    simp only [Option.bind_eq_bind, Option.bind_some, if_true, List.append_assoc,
      List.singleton_append, getRun_replicate, Option.map_some, hle]

/-- Read a fixed number of values. -/
def getMany (c : Codec α) : ℕ → Bytes → Option (List α × Bytes)
  | 0, b => some ([], b)
  | n + 1, b => do
      let (x, b) ← c.get b
      let (xs, b) ← getMany c n b
      return (x :: xs, b)

theorem getMany_flatMap (c : Codec α) (xs : List α) (rest : Bytes) :
    c.getMany xs.length (xs.flatMap c.put ++ rest) = some (xs, rest) := by
  induction xs with
  | nil => rfl
  | cons x xs ih => simp [getMany, List.append_assoc, c.get_put, ih]

/-- A sequence behind its length. -/
def list (c : Codec α) : Codec (List α) where
  put xs := putLength u64Max xs.length ++ xs.flatMap c.put
  get b := do
    let (n, b) ← getLength u64Max b
    c.getMany n b
  get_put := by
    intro xs rest
    simp [List.append_assoc, getLength_putLength, getMany_flatMap]

/-- A string as the sequence of its UTF-8 bytes. -/
def string : Codec String where
  put s := byte.list.put s.toUTF8.data.toList
  get b := do
    let (u, b) ← byte.list.get b
    let s ← String.fromUTF8? ⟨u.toArray⟩
    return (s, b)
  get_put := by
    intro s rest
    have h : String.fromUTF8? s.toByteArray = some s := by
      unfold String.fromUTF8?
      rw [dif_pos s.isValidUTF8]
      rfl
    have hdata : (⟨s.toUTF8.data.toList.toArray⟩ : ByteArray) = s.toByteArray := rfl
    rw [byte.list.get_put]
    simp only [Option.bind_eq_bind, Option.bind_some, hdata, h]
    rfl

end Codec

end ByteOrder
