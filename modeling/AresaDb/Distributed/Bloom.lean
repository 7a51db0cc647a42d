import AresaDb.Lib.BitWords

/-! # Bloom filters

`BloomFilter` (`distributed/bloom.rs`) keeps a set of byte strings as bits.  The hash function is a
parameter: it gives two words for an item, and the `i`th bit of the item is at `h₁ + i * h₂`,
wrapped to a word and then to the number of bits.

Insertion sets the bits of an item and clears none, so an inserted item may be contained from then
on, whatever the hash function is (`mayContain_insert_self`, `mayContain_insert_of`); a new filter
contains nothing. -/

namespace AresaDb.Distributed

open ByteOrder

/-- A Bloom filter; there are as many words as its bits need. -/
structure BloomFilter where
  bits : List UInt64
  numBits : ℕ
  numHashes : UInt32
  /-- The number of insertions; it wraps. -/
  count : UInt64
  hwords : bits.length = (numBits + 63) / 64

namespace BloomFilter

def withParams (numBits : ℕ) (numHashes : UInt32) : BloomFilter :=
  { bits := BitWords.zeros numBits
    numBits := numBits
    numHashes := numHashes
    count := 0
    hwords := BitWords.length_zeros numBits }

variable (sip : Bytes → UInt64 × UInt64) (f : BloomFilter)

/-- Double hashing. -/
def bitIndex (h : UInt64 × UInt64) (i : ℕ) : ℕ := (h.1 + UInt64.ofNat i * h.2).toNat % f.numBits

def insert (item : Bytes) : BloomFilter :=
  let h := sip item
  { f with
    bits := (List.range f.numHashes.toNat).foldl
      (fun ws i => BitWords.set ws (f.bitIndex h i)) f.bits
    count := f.count + 1
    hwords := by rw [BitWords.length_foldl_set, f.hwords] }

def mayContain (item : Bytes) : Bool :=
  let h := sip item
  (List.range f.numHashes.toNat).all fun i => BitWords.get f.bits (f.bitIndex h i)

def clear : BloomFilter :=
  { f with
    bits := f.bits.map fun _ => 0
    count := 0
    hwords := by rw [List.length_map, f.hwords] }

/-- The union, word by word; `none` is a failed assertion that the parameters are the same. -/
def merge (other : BloomFilter) : Option BloomFilter :=
  if h : f.numBits = other.numBits ∧ f.numHashes = other.numHashes then
    some
      { f with
        bits := List.zipWith (· ||| ·) f.bits other.bits
        count := f.count + other.count
        hwords := by rw [List.length_zipWith, f.hwords, other.hwords, h.1, min_self] }
  else none

variable {sip f} {a b : Bytes}

theorem mayContain_iff :
    f.mayContain sip a = true ↔
      ∀ i < f.numHashes.toNat, BitWords.get f.bits (f.bitIndex (sip a) i) = true := by
  simp only [mayContain, List.all_eq_true, List.mem_range]

/-- With at least one bit, every index falls within the words. -/
theorem bitIndex_word_lt (hpos : 0 < f.numBits) (h : UInt64 × UInt64) (i : ℕ) :
    f.bitIndex h i / 64 < f.bits.length := by
  have hlt : f.bitIndex h i < f.numBits := Nat.mod_lt _ hpos
  rw [f.hwords]
  omega

/-- The bits after an insertion are those before it and those of the item. -/
theorem get_bits_insert (hpos : 0 < f.numBits) (j : ℕ) :
    BitWords.get (f.insert sip a).bits j =
      (BitWords.get f.bits j || decide (∃ i ∈ List.range f.numHashes.toNat,
          f.bitIndex (sip a) i = j)) :=
  BitWords.get_foldl_set (fun i _ => bitIndex_word_lt hpos (sip a) i) j

theorem mayContain_insert_self (hpos : 0 < f.numBits) :
    (f.insert sip a).mayContain sip a = true := by
  rw [mayContain_iff]
  intro i hi
  rw [get_bits_insert hpos, Bool.or_eq_true, decide_eq_true_eq]
  exact .inr ⟨i, List.mem_range.mpr hi, rfl⟩

/-- No insertion makes a filter forget. -/
theorem mayContain_insert_of (hpos : 0 < f.numBits) (h : f.mayContain sip b = true) :
    (f.insert sip a).mayContain sip b = true := by
  rw [mayContain_iff] at h ⊢
  intro i hi
  rw [get_bits_insert hpos, Bool.or_eq_true]
  exact .inl (h i hi)

/-- Without any bit set nothing is contained. -/
theorem mayContain_of_get (hpos : 0 < f.numHashes) (hbits : ∀ j, BitWords.get f.bits j = false) :
    f.mayContain sip a = false := by
  rw [Bool.eq_false_iff, ne_eq, mayContain_iff]
  intro h
  have hfirst := h 0 (UInt32.lt_iff_toNat_lt.mp hpos)
  rw [hbits] at hfirst
  cases hfirst

theorem mayContain_withParams {numBits : ℕ} {numHashes : UInt32} (hpos : 0 < numHashes) :
    (withParams numBits numHashes).mayContain sip a = false :=
  mayContain_of_get hpos (BitWords.get_zeros numBits)

theorem mayContain_clear (hpos : 0 < f.numHashes) : f.clear.mayContain sip a = false := by
  have hbits : f.clear.bits = BitWords.zeros f.numBits := by
    change f.bits.map (fun _ => 0) = _
    rw [List.map_const', f.hwords]
    rfl
  exact mayContain_of_get hpos fun j => by rw [hbits, BitWords.get_zeros]

/-- Filters with the same parameters can be merged. -/
theorem merge_eq_some {g : BloomFilter} (h : f.numBits = g.numBits ∧ f.numHashes = g.numHashes) :
    ∃ m, f.merge g = some m ∧ m.numBits = f.numBits ∧ m.numHashes = f.numHashes ∧
      m.count = f.count + g.count := by
  rw [merge, dif_pos h]
  exact ⟨_, rfl, rfl, rfl, rfl⟩

/-- A union contains what either filter contains. -/
theorem mayContain_merge {g m : BloomFilter} (h : f.merge g = some m)
    (hin : f.mayContain sip a = true ∨ g.mayContain sip a = true) :
    m.mayContain sip a = true := by
  unfold merge at h
  split_ifs at h with hsame
  obtain rfl := Option.some.inj h
  have hlength : f.bits.length = g.bits.length := by rw [f.hwords, g.hwords, hsame.1]
  have hindex : ∀ i, g.bitIndex (sip a) i = f.bitIndex (sip a) i := fun i => by
    rw [bitIndex, bitIndex, hsame.1]
  simp only [mayContain_iff] at hin ⊢
  intro i hi
  change BitWords.get (List.zipWith _ f.bits g.bits) (f.bitIndex (sip a) i) = true
  rw [BitWords.get_zipWith hlength, Bool.or_eq_true]
  refine hin.imp (fun h => h i hi) fun h => ?_
  have hget := h i (hsame.2 ▸ hi)
  rwa [hindex] at hget

end BloomFilter

end AresaDb.Distributed
