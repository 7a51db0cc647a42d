import AresaDb.Distributed.BloomRuns
import AresaDb.Lib.LittleEndian

/-! # The bytes of a Bloom filter

A filter is written as a header of three fields of four bytes, and its words.  The number of bits
and the count are cut off to four bytes, and on reading the number of words is taken from the header
(`fromBytes_toBytes`).  A filter of fewer than `2 ^ 32` bits is read back as it was if its count is
below `2 ^ 32` too; for more bits there is a filter that is not (`round_trips_iff`). -/

namespace AresaDb.Distributed.BloomFilter

open ByteOrder LittleEndian

def toBytes (f : BloomFilter) : Bytes :=
  leBytes 4 (f.numBits % 2 ^ 32) ++ leBytes 4 f.numHashes.toNat ++
    leBytes 4 (f.count.toNat % 2 ^ 32) ++ putWords f.bits

def fromBytes (data : Bytes) : Option BloomFilter :=
  if data.length < 12 then none
  else
    let numBits := ofLeBytes (data.take 4)
    let numHashes := UInt32.ofNat (ofLeBytes ((data.drop 4).take 4))
    let count := UInt64.ofNat (ofLeBytes ((data.drop 8).take 4))
    let numWords := (numBits + 63) / 64
    if data.length < 12 + numWords * 8 then none
    else
      some
        { bits := (List.range numWords).map fun i => getWord (data.drop 12) i
          numBits := numBits
          numHashes := numHashes
          count := count
          hwords := by rw [List.length_map, List.length_range] }

/-- What is read back. -/
def restored (f : BloomFilter) : BloomFilter where
  bits := f.bits.take ((f.numBits % 2 ^ 32 + 63) / 64)
  numBits := f.numBits % 2 ^ 32
  numHashes := f.numHashes
  count := UInt64.ofNat (f.count.toNat % 2 ^ 32)
  hwords := by
    have hle : f.numBits % 2 ^ 32 ≤ f.numBits := Nat.mod_le _ _
    rw [List.length_take, f.hwords]
    omega

theorem ofLeBytes_four {n : ℕ} (h : n < 2 ^ 32) : ofLeBytes (leBytes 4 n) = n := by
  rw [ofLeBytes_leBytes]
  exact Nat.mod_eq_of_lt h

theorem fromBytes_toBytes (f : BloomFilter) : fromBytes f.toBytes = some f.restored := by
  have hbits : f.numBits % 2 ^ 32 < 2 ^ 32 := Nat.mod_lt _ (by decide)
  have hcount : f.count.toNat % 2 ^ 32 < 2 ^ 32 := Nat.mod_lt _ (by decide)
  have hlength : f.toBytes.length = 12 + f.bits.length * 8 := by
    simp only [toBytes, List.length_append, length_leBytes, length_putWords]
  have hfirst : f.toBytes.take 4 = leBytes 4 (f.numBits % 2 ^ 32) := by
    rw [toBytes, List.append_assoc, List.append_assoc]
    exact List.take_left' (length_leBytes 4 _)
  have hsecond : (f.toBytes.drop 4).take 4 = leBytes 4 f.numHashes.toNat := by
    rw [toBytes, List.append_assoc, List.append_assoc, List.drop_left' (length_leBytes 4 _)]
    exact List.take_left' (length_leBytes 4 _)
  have hthird : (f.toBytes.drop 8).take 4 = leBytes 4 (f.count.toNat % 2 ^ 32) := by
    rw [toBytes, List.append_assoc, List.drop_left' (by simp)]
    exact List.take_left' (length_leBytes 4 _)
  have hwords : f.toBytes.drop 12 = putWords f.bits := List.drop_left' (by simp)
  have hle : (f.numBits % 2 ^ 32 + 63) / 64 ≤ f.bits.length := by
    have hmod : f.numBits % 2 ^ 32 ≤ f.numBits := Nat.mod_le _ _
    rw [f.hwords]
    omega
  unfold fromBytes
  dsimp only
  simp only [hfirst, hsecond, hthird, hwords, ofLeBytes_four hbits, ofLeBytes_four hcount,
    ofLeBytes_four f.numHashes.toNat_lt, UInt32.ofNat_toNat, getWords_putWords hle]
  rw [if_neg (by omega), if_neg (by omega)]
  rfl

/-! ### Round trips -/

/-- The filter that is read back has the same count and answers alike; `none` for an answer is a
panic. -/
def RoundTrips (sip : Bytes → UInt64 × UInt64) (f : BloomFilter) : Prop :=
  ∃ g, fromBytes f.toBytes = some g ∧ g.count = f.count ∧
    ∀ item, g.containsChecked sip item = f.containsChecked sip item

variable {sip : Bytes → UInt64 × UInt64} {f : BloomFilter}

theorem roundTrips_iff_restored : f.RoundTrips sip ↔
    f.count.toNat < 2 ^ 32 ∧
      ∀ item, f.restored.containsChecked sip item = f.containsChecked sip item := by
  have hcount : f.restored.count = f.count ↔ f.count.toNat < 2 ^ 32 := by
    have hmod : f.count.toNat % 2 ^ 32 < 2 ^ 32 := Nat.mod_lt _ (by decide)
    have hsmall : f.restored.count.toNat = f.count.toNat % 2 ^ 32 :=
      UInt64.toNat_ofNat_of_lt' (hmod.trans (by decide))
    rw [← UInt64.toNat_inj, hsmall]
    omega
  unfold RoundTrips
  rw [fromBytes_toBytes]
  constructor
  · rintro ⟨g, hg, hgcount, hanswers⟩
    obtain rfl := Option.some.inj hg
    exact ⟨hcount.mp hgcount, hanswers⟩
  · rintro ⟨hsmall, hanswers⟩
    exact ⟨_, rfl, hcount.mpr hsmall, hanswers⟩

/-- With few enough bits, or without hashes, the answers are the same. -/
theorem containsChecked_restored (h : f.numBits < 2 ^ 32 ∨ f.numHashes = 0) (item : Bytes) :
    f.restored.containsChecked sip item = f.containsChecked sip item := by
  obtain hbits | hhashes := h
  · have hnum : f.restored.numBits = f.numBits := Nat.mod_eq_of_lt hbits
    have hwords : f.restored.bits = f.bits := by
      have hlength : f.bits.length ≤ (f.numBits % 2 ^ 32 + 63) / 64 := by
        rw [Nat.mod_eq_of_lt hbits, f.hwords]
      exact List.take_of_length_le hlength
    have hset : ∀ l, f.restored.allSet (sip item) l = f.allSet (sip item) l := by
      intro l
      induction l with
      | nil => rfl
      | cons i rest ih =>
          simp only [allSet, getBitIndex, bitIndex, getBit, hnum, hwords, ih]
    exact hset _
  · have hrange : List.range f.numHashes.toNat = [] := by rw [hhashes]; rfl
    have hrange' : List.range f.restored.numHashes.toNat = [] := hrange
    rw [containsChecked, containsChecked, hrange, hrange']
    rfl

/-- A number of bits that is written as zero: a new filter answers, and panics once it is read back.
-/
theorem new_not_roundTrips (sip : Bytes → UInt64 × UInt64) {numBits : ℕ} {numHashes : UInt32}
    (hpos : 0 < numBits) (hk : 0 < numHashes) (hzero : numBits % 2 ^ 32 = 0) :
    ¬ (withParams numBits numHashes).RoundTrips sip := by
  intro h
  have hanswer := (roundTrips_iff_restored.mp h).2 []
  have hnew : 0 < (withParams numBits numHashes).numBits := hpos
  rw [containsChecked_eq hnew, mayContain_withParams hk] at hanswer
  have hfirst : 0 < numHashes.toNat := UInt32.lt_iff_toNat_lt.mp hk
  obtain ⟨m, hm⟩ := Nat.exists_eq_succ_of_ne_zero hfirst.ne'
  have hrange : List.range (withParams numBits numHashes).restored.numHashes.toNat =
      0 :: (List.range m).map Nat.succ := by
    change List.range numHashes.toNat = _
    rw [hm, List.range_succ_eq_map]
  have hnum : (withParams numBits numHashes).restored.numBits = 0 := hzero
  rw [containsChecked, hrange, allSet, getBitIndex, if_pos hnum] at hanswer
  cases hanswer

/-- Another number of bits that is too large: an item whose bit is past those that are left is
looked up at bit zero, which was not set. -/
theorem insert_not_roundTrips {numBits : ℕ} {numHashes : UInt32} (hbits : 2 ^ 32 ≤ numBits)
    (hk : 0 < numHashes) (hrest : 0 < numBits % 2 ^ 32)
    (hhash : sip [] = (UInt64.ofNat (numBits % 2 ^ 32), 0)) :
    ¬ ((withParams numBits numHashes).insert sip []).RoundTrips sip := by
  have hlt : numBits % 2 ^ 32 < 2 ^ 32 := Nat.mod_lt _ (by decide)
  have hword : ∀ i : ℕ, (UInt64.ofNat (numBits % 2 ^ 32) + UInt64.ofNat i * 0).toNat =
      numBits % 2 ^ 32 := by
    intro i
    rw [mul_zero, add_zero]
    exact UInt64.toNat_ofNat_of_lt' (hlt.trans (by decide))
  have hnew : 0 < (withParams numBits numHashes).numBits := lt_of_lt_of_le (by decide) hbits
  intro h
  have hanswer := (roundTrips_iff_restored.mp h).2 []
  have hread : 0 < ((withParams numBits numHashes).insert sip []).restored.numBits := hrest
  have hinserted : 0 < ((withParams numBits numHashes).insert sip []).numBits := hnew
  rw [containsChecked_eq hread, containsChecked_eq hinserted,
    mayContain_insert_self hnew] at hanswer
  have hget := mayContain_iff.mp (Option.some.inj hanswer) 0 (UInt32.lt_iff_toNat_lt.mp hk)
  have hindex :
      ((withParams numBits numHashes).insert sip []).restored.bitIndex (sip []) 0 = 0 := by
    rw [hhash, bitIndex, hword]
    exact Nat.mod_self _
  have hkept : 0 / 64 < (numBits % 2 ^ 32 + 63) / 64 := by omega
  rw [hindex] at hget
  change BitWords.get (List.take ((numBits % 2 ^ 32 + 63) / 64)
    ((withParams numBits numHashes).insert sip []).bits) 0 = true at hget
  rw [BitWords.get_take hkept, get_bits_insert hnew, Bool.or_eq_true, decide_eq_true_iff] at hget
  obtain hset | ⟨i, -, hi⟩ := hget
  · rw [withParams, BitWords.get_zeros] at hset
    cases hset
  · have hplace : (withParams numBits numHashes).bitIndex (sip []) i = numBits % 2 ^ 32 := by
      rw [hhash, bitIndex, hword]
      exact Nat.mod_eq_of_lt (hlt.trans_le hbits)
    omega

/-- With `2 ^ 32` bits or more, some filter is not read back as it was. -/
theorem exists_not_roundTrips {numBits : ℕ} {numHashes : UInt32} (hbits : 2 ^ 32 ≤ numBits)
    (hhashes : numHashes ≠ 0) :
    ∃ (sip : Bytes → UInt64 × UInt64) (run : Run) (f : BloomFilter),
      run.eval sip numBits numHashes = some f ∧ f.count.toNat < 2 ^ 32 ∧ ¬ f.RoundTrips sip := by
  have hpos : 0 < numBits := lt_of_lt_of_le (by decide) hbits
  have hk : 0 < numHashes := UInt32.pos_iff_ne_zero.mpr hhashes
  obtain hzero | hrest := Nat.eq_zero_or_pos (numBits % 2 ^ 32)
  · exact ⟨fun _ => (0, 0), .new, withParams numBits numHashes, rfl,
      show (0 : UInt64).toNat < 2 ^ 32 by decide, new_not_roundTrips _ hpos hk hzero⟩
  · refine ⟨fun _ => (UInt64.ofNat (numBits % 2 ^ 32), 0), .insert .new [], _,
      (Option.bind_some _ _).trans (insertChecked_eq hpos []),
      show ((0 : UInt64) + 1).toNat < 2 ^ 32 by decide, insert_not_roundTrips hbits hk hrest rfl⟩

/-- A filter that was merged with itself over and over: its count doubles each time. -/
def Run.doubled : ℕ → Run
  | 0 => .insert .new []
  | times + 1 => .merge (doubled times) (doubled times)

theorem Run.count_doubled (sip : Bytes → UInt64 × UInt64) {numBits : ℕ} (hpos : 0 < numBits)
    (numHashes : UInt32) (times : ℕ) :
    ∃ f, (Run.doubled times).eval sip numBits numHashes = some f ∧
      f.count = UInt64.ofNat (2 ^ times) := by
  induction times with
  | zero => exact ⟨_, (Option.bind_some _ _).trans (insertChecked_eq hpos []), rfl⟩
  | succ times ih =>
      obtain ⟨f, hf, hcount⟩ := ih
      obtain ⟨m, hm, -, -, hsum⟩ := merge_eq_some (f := f) (g := f) ⟨rfl, rfl⟩
      refine ⟨m, ?_, ?_⟩
      · rw [Run.doubled, Run.eval, hf, Option.bind_some, Option.bind_some, hm]
      · rw [hsum, hcount, ← UInt64.ofNat_add, ← two_mul, ← pow_succ']

/-- After 32 merges the count that is read back is zero. -/
theorem doubled_not_roundTrips :
    ∃ f, (Run.doubled 32).eval (fun _ => (0, 0)) 64 1 = some f ∧ ¬ f.RoundTrips fun _ =>
        (0, 0) := by
  obtain ⟨f, hf, hcount⟩ := Run.count_doubled (fun _ => (0, 0)) (by decide : 0 < 64) 1 32
  refine ⟨f, hf, fun h => ?_⟩
  have hsmall := (roundTrips_iff_restored.mp h).1
  rw [hcount] at hsmall
  exact absurd hsmall (by decide)

/-- Whatever the hash function is, all filters with a count below `2 ^ 32` are read back as they
were, and no others, if and only if the number of bits is below that too, or there are no hashes. -/
theorem round_trips_iff (numBits : ℕ) (numHashes : UInt32) :
    (∀ (sip : Bytes → UInt64 × UInt64) (run : Run) (f : BloomFilter),
        run.eval sip numBits numHashes = some f → (f.RoundTrips sip ↔ f.count.toNat < 2 ^ 32)) ↔
      numBits < 2 ^ 32 ∨ numHashes = 0 := by
  constructor
  · intro h
    by_contra hnot
    rw [not_or, not_lt] at hnot
    obtain ⟨sip, run, f, hf, hcount, hbad⟩ := exists_not_roundTrips hnot.1 hnot.2
    exact hbad ((h sip run f hf).mpr hcount)
  · intro h sip run f hf
    obtain ⟨hbits, hhashes⟩ := Run.eval_params hf
    rw [← hbits, ← hhashes] at h
    rw [roundTrips_iff_restored]
    exact and_iff_left (containsChecked_restored h)

end AresaDb.Distributed.BloomFilter
