import AresaDb.Lib.ByteOrder

/-! # Bit arrays in words

A bit array kept in a list of 64-bit words: bit `i` is bit `i % 64` of word `i / 64`.  Setting a bit
sets that one and keeps every other (`get_set`); a bit past the last word is never set. -/

namespace BitWords

/-- The words that hold `n` bits, all zero. -/
def zeros (n : ℕ) : List UInt64 := List.replicate ((n + 63) / 64) 0

/-- Bit `b` of a word. -/
def wordBit (w : UInt64) (b : ℕ) : Bool := (w >>> UInt64.ofNat b) &&& 1 == 1

def get (ws : List UInt64) (i : ℕ) : Bool := wordBit (ws.getD (i / 64) 0) (i % 64)

def set (ws : List UInt64) (i : ℕ) : List UInt64 :=
  ws.modify (i / 64) fun w => w ||| 1 <<< UInt64.ofNat (i % 64)

@[simp] theorem length_zeros (n : ℕ) : (zeros n).length = (n + 63) / 64 := List.length_replicate

@[simp] theorem length_set (ws : List UInt64) (i : ℕ) : (set ws i).length = ws.length :=
  List.length_modify _ _ _

theorem toNat_ofNat_of_lt {b : ℕ} (hb : b < 64) : (UInt64.ofNat b).toNat = b :=
  UInt64.toNat_ofNat_of_lt' (lt_trans hb (by decide))

theorem wordBit_eq (w : UInt64) {b : ℕ} (hb : b < 64) : wordBit w b = w.toNat.testBit b := by
  have hword := toNat_ofNat_of_lt hb
  have hone : (1 : UInt64).toNat = 1 := rfl
  rw [wordBit, Bool.eq_iff_iff, beq_iff_eq, ← UInt64.toNat_inj, UInt64.toNat_and,
    UInt64.toNat_shiftRight, hword, Nat.mod_eq_of_lt hb, hone, Nat.testBit, bne_iff_ne,
    Nat.and_comm, Nat.one_and_eq_mod_two]
  omega

/-- Setting a bit of a word sets that one. -/
theorem wordBit_or (w : UInt64) {a b : ℕ} (ha : a < 64) (hb : b < 64) :
    wordBit (w ||| 1 <<< UInt64.ofNat a) b = (wordBit w b || decide (b = a)) := by
  have hword := toNat_ofNat_of_lt ha
  have hone : (1 : UInt64).toNat = 1 := rfl
  rw [wordBit_eq _ hb, wordBit_eq _ hb, UInt64.toNat_or, Nat.testBit_or, UInt64.toNat_shiftLeft,
    hword, Nat.mod_eq_of_lt ha, hone, Nat.testBit_mod_two_pow, Nat.one_shiftLeft,
    Nat.testBit_two_pow]
  simp [hb, eq_comm]

theorem get_zeros (n i : ℕ) : get (zeros n) i = false := by
  have hword : (zeros n).getD (i / 64) 0 = 0 := by
    rw [zeros, List.getD_eq_getElem?_getD, List.getElem?_replicate]
    split_ifs <;> rfl
  rw [get, hword, wordBit_eq _ (Nat.mod_lt _ (by decide))]
  exact Nat.zero_testBit _

/-- The bits of the first words. -/
theorem get_take {ws : List UInt64} {n i : ℕ} (h : i / 64 < n) : get (ws.take n) i = get ws i := by
  unfold get
  rw [List.getD_eq_getElem?_getD, List.getD_eq_getElem?_getD, List.getElem?_take_of_lt h]

/-- The bits of a union of words are those of either. -/
theorem get_zipWith {ws vs : List UInt64} (h : ws.length = vs.length) (j : ℕ) :
    get (List.zipWith (· ||| ·) ws vs) j = (get ws j || get vs j) := by
  have hmod : j % 64 < 64 := Nat.mod_lt j (by decide)
  unfold get
  rw [wordBit_eq _ hmod, wordBit_eq _ hmod, wordBit_eq _ hmod, ← Nat.testBit_or, ← UInt64.toNat_or,
    List.getD_eq_getElem?_getD, List.getD_eq_getElem?_getD, List.getD_eq_getElem?_getD,
    List.getElem?_zipWith]
  by_cases hj : j / 64 < ws.length
  · rw [List.getElem?_eq_getElem hj, List.getElem?_eq_getElem (h ▸ hj)]
    rfl
  · rw [List.getElem?_eq_none (by omega), List.getElem?_eq_none (by omega)]
    rfl

/-- Setting a bit within the words sets that one and keeps the others. -/
theorem get_set {ws : List UInt64} {i : ℕ} (hi : i / 64 < ws.length) (j : ℕ) :
    get (set ws i) j = (get ws j || decide (j = i)) := by
  have hmod : ∀ n : ℕ, n % 64 < 64 := fun n => Nat.mod_lt n (by decide)
  unfold get set
  rw [List.getD_eq_getElem?_getD, List.getElem?_modify, List.getD_eq_getElem?_getD]
  by_cases hword : i / 64 = j / 64
  · have hiff : j % 64 = i % 64 ↔ j = i := by omega
    rw [← hword, List.getElem?_eq_getElem hi]
    simp only [if_true, Option.map_eq_map, Option.map_some, Option.getD_some,
      wordBit_or _ (hmod i) (hmod j), hiff]
  · have hne : j ≠ i := fun heq => hword (by rw [heq])
    simp [hword, hne]

@[simp] theorem length_foldl_set {α : Type} (f : α → ℕ) (l : List α) (ws : List UInt64) :
    (l.foldl (fun ws x => set ws (f x)) ws).length = ws.length := by
  induction l generalizing ws with
  | nil => rfl
  | cons x l ih => rw [List.foldl_cons, ih, length_set]

/-- Setting bits sets these and never clears one. -/
theorem get_foldl_set {α : Type} {f : α → ℕ} {l : List α} {ws : List UInt64}
    (hl : ∀ x ∈ l, f x / 64 < ws.length) (j : ℕ) :
    get (l.foldl (fun ws x => set ws (f x)) ws) j = (get ws j || decide (∃ x ∈ l, f x = j)) := by
  induction l generalizing ws with
  | nil => simp
  | cons x l ih =>
      have hx := hl x List.mem_cons_self
      have htail : ∀ y ∈ l, f y / 64 < (set ws (f x)).length := by
        intro y hy
        rw [length_set]
        exact hl y (List.mem_cons_of_mem _ hy)
      rw [List.foldl_cons, ih htail, get_set hx, Bool.or_assoc]
      congr 1
      simp only [List.exists_mem_cons_iff, Bool.decide_or, eq_comm]

end BitWords
