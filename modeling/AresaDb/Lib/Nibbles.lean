import Mathlib

/-! # Counters of four bits

Counters kept in a list of 64-bit words, sixteen in each: counter `i` is the four bits of word `i /
16` from bit `i % 16 * 4` on.  A counter that is full stays full, and one that is zero stays zero;
the others are never touched (`get_increment`, `get_decrement`). -/

namespace Nibbles

/-! ### The digits of a number -/

/-- Digit `b` to base 16. -/
def nibble (w b : ℕ) : ℕ := w / 16 ^ b % 16

theorem nibble_lt (w b : ℕ) : nibble w b < 16 := Nat.mod_lt _ (by decide)

theorem add_div_self (w b : ℕ) : (w + 16 ^ b) / 16 ^ b = w / 16 ^ b + 1 :=
  Nat.add_div_right w (by positivity)

/-- Without a carry the higher digits stay. -/
theorem add_div_higher {w b c : ℕ} (h : nibble w b < 15) (hc : b < c) :
    (w + 16 ^ b) / 16 ^ c = w / 16 ^ c := by
  have hpow : 16 ^ c = 16 ^ b * (16 * 16 ^ (c - b - 1)) := by
    rw [← pow_succ', ← pow_add]
    congr 1
    omega
  unfold nibble at h
  rw [hpow, ← Nat.div_div_eq_div_mul, ← Nat.div_div_eq_div_mul, ← Nat.div_div_eq_div_mul,
    ← Nat.div_div_eq_div_mul, add_div_self]
  congr 1
  omega

theorem nibble_add {w b : ℕ} (h : nibble w b < 15) (c : ℕ) :
    nibble (w + 16 ^ b) c = if c = b then nibble w b + 1 else nibble w c := by
  obtain hlt | rfl | hlt := lt_trichotomy c b
  · have hpow : 16 ^ b = 16 ^ c * (16 * 16 ^ (b - c - 1)) := by
      rw [← pow_succ', ← pow_add]
      congr 1
      omega
    rw [if_neg hlt.ne, nibble, hpow, Nat.add_mul_div_left _ _ (by positivity),
      Nat.add_mul_mod_self_left]
    rfl
  · unfold nibble at h ⊢
    rw [if_pos rfl, add_div_self]
    omega
  · rw [if_neg hlt.ne', nibble, add_div_higher h hlt]
    rfl

/-- A digit that is not the greatest one can be raised without getting out of a word. -/
theorem add_lt_word {w b : ℕ} (h : nibble w b < 15) (hb : b < 16) (hw : w < 2 ^ 64) :
    w + 16 ^ b < 2 ^ 64 := by
  have hword : (2 ^ 64 : ℕ) = 16 ^ 16 := by norm_num
  rw [hword] at hw ⊢
  have hdiv := add_div_higher h hb
  rw [Nat.div_eq_of_lt hw] at hdiv
  exact (Nat.div_eq_zero_iff_lt (by positivity)).mp hdiv

theorem pow_le_of_nibble {w b : ℕ} (h : 0 < nibble w b) : 16 ^ b ≤ w := by
  by_contra hlt
  rw [nibble, Nat.div_eq_of_lt (not_le.mp hlt)] at h
  exact absurd h (by decide)

theorem nibble_sub {w b : ℕ} (h : 0 < nibble w b) (c : ℕ) :
    nibble (w - 16 ^ b) c = if c = b then nibble w b - 1 else nibble w c := by
  obtain ⟨v, rfl⟩ := Nat.exists_eq_add_of_le' (pow_le_of_nibble h)
  have hlow : nibble v b < 15 := by
    unfold nibble at h ⊢
    rw [add_div_self] at h
    omega
  rw [Nat.add_sub_cancel, nibble_add hlow, nibble_add hlow, if_pos rfl, Nat.add_sub_cancel]
  split_ifs with hc
  · rw [hc]
  · rfl

/-! ### Words -/

/-- Counter `b` of a word. -/
def wordCounter (w : UInt64) (b : ℕ) : ℕ := ((w >>> UInt64.ofNat (b * 4)) &&& 0xF).toNat

theorem toNat_shift {b : ℕ} (hb : b < 16) : (UInt64.ofNat (b * 4)).toNat % 64 = b * 4 := by
  rw [UInt64.toNat_ofNat_of_lt' (by change b * 4 < 2 ^ 64; omega), Nat.mod_eq_of_lt (by omega)]

theorem two_pow_mul_four (b : ℕ) : 2 ^ (b * 4) = 16 ^ b := by
  rw [mul_comm, pow_mul]
  norm_num

theorem wordCounter_eq (w : UInt64) {b : ℕ} (hb : b < 16) : wordCounter w b = nibble w.toNat b := by
  have hmask : (0xF : UInt64).toNat = 2 ^ 4 - 1 := rfl
  rw [wordCounter, UInt64.toNat_and, UInt64.toNat_shiftRight, toNat_shift hb,
    Nat.shiftRight_eq_div_pow, two_pow_mul_four, hmask, Nat.and_two_pow_sub_one_eq_mod]
  rfl

theorem toNat_one_shiftLeft {b : ℕ} (hb : b < 16) :
    ((1 : UInt64) <<< UInt64.ofNat (b * 4)).toNat = 16 ^ b := by
  have hone : (1 : UInt64).toNat = 1 := rfl
  have hlt : 2 ^ (b * 4) < 2 ^ 64 := Nat.pow_lt_pow_right (by decide) (by omega)
  rw [UInt64.toNat_shiftLeft, toNat_shift hb, hone, Nat.one_shiftLeft, Nat.mod_eq_of_lt hlt,
    two_pow_mul_four]

theorem wordCounter_add {w : UInt64} {b c : ℕ} (hb : b < 16) (hc : c < 16)
    (h : wordCounter w b < 15) :
    wordCounter (w + 1 <<< UInt64.ofNat (b * 4)) c =
      if c = b then wordCounter w b + 1 else wordCounter w c := by
  rw [wordCounter_eq w hb] at h ⊢
  rw [wordCounter_eq _ hc, wordCounter_eq w hc, UInt64.toNat_add, toNat_one_shiftLeft hb,
    Nat.mod_eq_of_lt (add_lt_word h hb w.toNat_lt), nibble_add h]

theorem wordCounter_sub {w : UInt64} {b c : ℕ} (hb : b < 16) (hc : c < 16)
    (h : 0 < wordCounter w b) :
    wordCounter (w - 1 <<< UInt64.ofNat (b * 4)) c =
      if c = b then wordCounter w b - 1 else wordCounter w c := by
  rw [wordCounter_eq w hb] at h ⊢
  have hle : (1 : UInt64) <<< UInt64.ofNat (b * 4) ≤ w := by
    rw [UInt64.le_iff_toNat_le, toNat_one_shiftLeft hb]
    exact pow_le_of_nibble h
  rw [wordCounter_eq _ hc, wordCounter_eq w hc, UInt64.toNat_sub_of_le _ _ hle,
    toNat_one_shiftLeft hb, nibble_sub h]

/-! ### Lists of words -/

/-- The words that hold `n` counters, all zero. -/
def zeros (n : ℕ) : List UInt64 := List.replicate ((n + 15) / 16) 0

def get (ws : List UInt64) (i : ℕ) : ℕ := wordCounter (ws.getD (i / 16) 0) (i % 16)

/-- A full counter is left as it is. -/
def increment (ws : List UInt64) (i : ℕ) : List UInt64 :=
  if get ws i < 15 then ws.modify (i / 16) fun w => w + 1 <<< UInt64.ofNat (i % 16 * 4) else ws

def decrement (ws : List UInt64) (i : ℕ) : List UInt64 :=
  if 0 < get ws i then ws.modify (i / 16) fun w => w - 1 <<< UInt64.ofNat (i % 16 * 4) else ws

theorem get_le (ws : List UInt64) (i : ℕ) : get ws i ≤ 15 := by
  rw [get, wordCounter_eq _ (Nat.mod_lt i (by decide))]
  exact Nat.le_of_lt_succ (nibble_lt _ _)

theorem get_zeros (n i : ℕ) : get (zeros n) i = 0 := by
  have hword : (zeros n).getD (i / 16) 0 = 0 := by
    rw [zeros, List.getD_eq_getElem?_getD, List.getElem?_replicate]
    split_ifs <;> rfl
  have hzero : (0 : UInt64).toNat = 0 := rfl
  rw [get, hword, wordCounter_eq _ (Nat.mod_lt i (by decide)), hzero, nibble, Nat.zero_div]

@[simp] theorem length_increment (ws : List UInt64) (i : ℕ) :
    (increment ws i).length = ws.length := by
  unfold increment
  split_ifs
  · exact List.length_modify _ _ _
  · rfl

@[simp] theorem length_decrement (ws : List UInt64) (i : ℕ) :
    (decrement ws i).length = ws.length := by
  unfold decrement
  split_ifs
  · exact List.length_modify _ _ _
  · rfl

/-- A counter after a change of one word that changes one counter of it. -/
theorem get_modify {ws : List UInt64} {i : ℕ} (hi : i / 16 < ws.length)
    (f : UInt64 → UInt64) {n : ℕ} (hf : ∀ c < 16, wordCounter (f (ws.getD (i / 16) 0)) c =
      if c = i % 16 then n else wordCounter (ws.getD (i / 16) 0) c) (j : ℕ) :
    get (ws.modify (i / 16) f) j = if j = i then n else get ws j := by
  unfold get
  rw [List.getD_eq_getElem?_getD, List.getElem?_modify]
  by_cases hword : i / 16 = j / 16
  · have hiff : j % 16 = i % 16 ↔ j = i := by omega
    have hj := hf (j % 16) (Nat.mod_lt j (by decide))
    rw [List.getD_eq_getElem?_getD, List.getElem?_eq_getElem hi, Option.getD_some] at hj
    rw [← hword, List.getElem?_eq_getElem hi]
    simp only [if_true, Option.map_eq_map, Option.map_some, Option.getD_some, hj, hiff,
      List.getD_eq_getElem?_getD, List.getElem?_eq_getElem hi]
  · have hne : j ≠ i := fun heq => hword (by rw [heq])
    simp [hword, hne]

theorem get_increment {ws : List UInt64} {i : ℕ} (hi : i / 16 < ws.length) (j : ℕ) :
    get (increment ws i) j = if j = i then min 15 (get ws i + 1) else get ws j := by
  unfold increment
  by_cases hfull : get ws i < 15
  · have hword : ∀ c < 16,
        wordCounter (ws.getD (i / 16) 0 + 1 <<< UInt64.ofNat (i % 16 * 4)) c =
          if c = i % 16 then get ws i + 1 else wordCounter (ws.getD (i / 16) 0) c :=
      fun c hc => wordCounter_add (Nat.mod_lt i (by decide)) hc hfull
    rw [if_pos hfull, get_modify hi (fun w => w + 1 <<< UInt64.ofNat (i % 16 * 4)) hword,
      min_eq_right (by omega)]
  · have hle := get_le ws i
    rw [if_neg hfull]
    split_ifs with hj
    · rw [hj]
      omega
    · rfl

theorem get_decrement {ws : List UInt64} {i : ℕ} (hi : i / 16 < ws.length) (j : ℕ) :
    get (decrement ws i) j = if j = i then get ws i - 1 else get ws j := by
  unfold decrement
  by_cases hpos : 0 < get ws i
  · have hword : ∀ c < 16,
        wordCounter (ws.getD (i / 16) 0 - 1 <<< UInt64.ofNat (i % 16 * 4)) c =
          if c = i % 16 then get ws i - 1 else wordCounter (ws.getD (i / 16) 0) c :=
      fun c hc => wordCounter_sub (Nat.mod_lt i (by decide)) hc hpos
    rw [if_pos hpos, get_modify hi (fun w => w - 1 <<< UInt64.ofNat (i % 16 * 4)) hword]
  · rw [if_neg hpos]
    split_ifs with hj
    · rw [hj]
      omega
    · rfl

section

variable {α : Type} {f : α → ℕ} {l : List α} {ws : List UInt64}

theorem length_foldl_increment (f : α → ℕ) (l : List α) (ws : List UInt64) :
    (l.foldl (fun ws x => increment ws (f x)) ws).length = ws.length := by
  induction l generalizing ws with
  | nil => rfl
  | cons x l ih => rw [List.foldl_cons, ih, length_increment]

theorem length_foldl_decrement (f : α → ℕ) (l : List α) (ws : List UInt64) :
    (l.foldl (fun ws x => decrement ws (f x)) ws).length = ws.length := by
  induction l generalizing ws with
  | nil => rfl
  | cons x l ih => rw [List.foldl_cons, ih, length_decrement]

/-- A counter goes up as often as it is hit, to 15 at most. -/
theorem get_foldl_increment (hl : ∀ x ∈ l, f x / 16 < ws.length) (j : ℕ) :
    get (l.foldl (fun ws x => increment ws (f x)) ws) j =
        min 15 (get ws j + (l.map f).count j) := by
  induction l generalizing ws with
  | nil =>
      have hle := get_le ws j
      simp [hle]
  | cons x l ih =>
      have htail : ∀ y ∈ l, f y / 16 < (increment ws (f x)).length := by
        intro y hy
        rw [length_increment]
        exact hl y (List.mem_cons_of_mem _ hy)
      rw [List.foldl_cons, ih htail, get_increment (hl x List.mem_cons_self), List.map_cons,
        List.count_cons]
      split_ifs with hj hx hx
      · subst hj
        omega
      · exact absurd (beq_iff_eq.mpr hj.symm) hx
      · exact absurd (beq_iff_eq.mp hx).symm hj
      · rfl

/-- A counter goes down as often as it is hit, to zero at most. -/
theorem get_foldl_decrement (hl : ∀ x ∈ l, f x / 16 < ws.length) (j : ℕ) :
    get (l.foldl (fun ws x => decrement ws (f x)) ws) j = get ws j - (l.map f).count j := by
  induction l generalizing ws with
  | nil => rfl
  | cons x l ih =>
      have htail : ∀ y ∈ l, f y / 16 < (decrement ws (f x)).length := by
        intro y hy
        rw [length_decrement]
        exact hl y (List.mem_cons_of_mem _ hy)
      rw [List.foldl_cons, ih htail, get_decrement (hl x List.mem_cons_self), List.map_cons,
        List.count_cons]
      split_ifs with hj hx hx
      · subst hj
        omega
      · exact absurd (beq_iff_eq.mpr hj.symm) hx
      · exact absurd (beq_iff_eq.mp hx).symm hj
      · rfl

end

end Nibbles
