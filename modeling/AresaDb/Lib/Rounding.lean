import AresaDb.Lib.Binary64

/-! # Rounding keeps the order

Rounding to the nearest integer, ties to even, is monotone in the quotient that is rounded
(`roundHalfEven_mono`), and so is the conversion of integers to binary64 (`rank_ofInt_mono`). -/

namespace Binary64

/-! ### To the nearest integer -/

/-- The quotient lies below the middle of the two integers, or on it and goes to the even one. -/
theorem roundHalfEven_le_iff {n d k : ℕ} (hd : 0 < d) :
    roundHalfEven n d ≤ k ↔ 2 * n < (2 * k + 1) * d ∨ 2 * n = (2 * k + 1) * d ∧ k % 2 = 0 := by
  have hdiv := Nat.div_add_mod n d
  have hmod := Nat.mod_lt n hd
  have hmiddle : (2 * k + 1) * d = 2 * (d * k) + d := by ring
  unfold roundHalfEven
  generalize n / d = q at hdiv ⊢
  generalize n % d = r at hdiv hmod ⊢
  rw [hmiddle, ← hdiv]
  dsimp only
  obtain hlt | rfl | hgt := lt_trichotomy q k
  · have hstep : d * (q + 1) ≤ d * k := Nat.mul_le_mul_left d hlt
    rw [mul_add_one] at hstep
    split_ifs <;> omega
  · split_ifs <;> omega
  · have hstep : d * (k + 1) ≤ d * q := Nat.mul_le_mul_left d hgt
    rw [mul_add_one] at hstep
    split_ifs <;> omega

theorem roundHalfEven_mono {n d n' d' : ℕ} (hd : 0 < d) (hd' : 0 < d') (h : n * d' ≤ n' * d) :
    roundHalfEven n d ≤ roundHalfEven n' d' := by
  have hle := (roundHalfEven_le_iff hd').mp (le_refl (roundHalfEven n' d'))
  generalize roundHalfEven n' d' = k at hle ⊢
  have hscaled : 2 * n * d' ≤ 2 * n' * d := by
    rw [mul_assoc, mul_assoc]
    exact Nat.mul_le_mul_left 2 h
  have hswap : (2 * k + 1) * d' * d = (2 * k + 1) * d * d' := by ring
  rw [roundHalfEven_le_iff hd]
  obtain hlt | ⟨heq, heven⟩ := hle
  · left
    have hbelow : 2 * n * d' < (2 * k + 1) * d * d' :=
      hswap ▸ hscaled.trans_lt (Nat.mul_lt_mul_of_pos_right hlt hd)
    exact Nat.lt_of_mul_lt_mul_right hbelow
  · have hbelow : 2 * n * d' ≤ (2 * k + 1) * d * d' := hswap ▸ heq ▸ hscaled
    exact (Nat.le_of_mul_le_mul_right hbelow hd').lt_or_eq.imp_right fun htie => ⟨htie, heven⟩

/-- An integer is rounded to itself. -/
theorem roundHalfEven_one (n : ℕ) : roundHalfEven n 1 = n := by
  simp [roundHalfEven, Nat.mod_one]

/-- A quotient between two integers is rounded to one between them. -/
theorem roundHalfEven_mem {n d a b : ℕ} (hd : 0 < d) (ha : a * d ≤ n) (hb : n ≤ b * d) :
    a ≤ roundHalfEven n d ∧ roundHalfEven n d ≤ b := by
  have hlow : roundHalfEven a 1 ≤ roundHalfEven n d := roundHalfEven_mono one_pos hd (by omega)
  have hhigh : roundHalfEven n d ≤ roundHalfEven b 1 := roundHalfEven_mono hd one_pos (by omega)
  rw [roundHalfEven_one] at hlow hhigh
  exact ⟨hlow, hhigh⟩

/-! ### Integers -/

/-- The significand of an integer, with 53 bits. -/
def significandOf (n : ℕ) : ℕ :=
  if n.log2 ≤ 52 then n * 2 ^ (52 - n.log2) else roundHalfEven n (2 ^ (n.log2 - 52))

theorem ofQuotient_one {n : ℕ} (hn : n ≠ 0) :
    ofQuotient n 1 = min ((n.log2 + 1022) * 2 ^ 52 + significandOf n) infMagnitude := by
  have hpow : 1 * 2 ^ n.log2 ≤ n := by
    rw [one_mul]
    exact Nat.log2_self_le hn
  have hlog : ((n.log2 : ℕ) : ℤ) - (Nat.log2 1 : ℕ) = (n.log2 : ℤ) := sub_zero _
  have hmax : max ((n.log2 : ℕ) : ℤ) (-1022) = n.log2 := by omega
  unfold ofQuotient significandOf
  rw [if_neg hn]
  dsimp only
  rw [hlog, if_pos (Int.natCast_nonneg _), Int.toNat_natCast, decide_eq_true hpow, if_pos rfl, hmax]
  have hfield : ((n.log2 : ℤ) + 1022).toNat = n.log2 + 1022 := by omega
  rw [hfield]
  congr 2
  by_cases hsmall : n.log2 ≤ 52
  · have hshift : (52 - (n.log2 : ℤ)).toNat = 52 - n.log2 := by omega
    rw [if_pos (by omega), if_pos hsmall, hshift, roundHalfEven_one]
  · have hshift : (-(52 - (n.log2 : ℤ))).toNat = n.log2 - 52 := by omega
    rw [if_neg (by omega), if_neg hsmall, hshift, one_mul]

theorem significandOf_mem {n : ℕ} (hn : n ≠ 0) :
    2 ^ 52 ≤ significandOf n ∧ significandOf n ≤ 2 ^ 53 := by
  have hlow := Nat.log2_self_le hn
  have hhigh : n < 2 ^ (n.log2 + 1) := Nat.lt_log2_self
  unfold significandOf
  split_ifs with hsmall
  · have hscale : 2 ^ n.log2 * 2 ^ (52 - n.log2) = 2 ^ 52 := by
      rw [← pow_add]
      congr 1
      omega
    rw [pow_succ] at hhigh
    constructor
    · exact hscale ▸ Nat.mul_le_mul_right _ hlow
    · calc n * 2 ^ (52 - n.log2)
          ≤ 2 ^ n.log2 * 2 * 2 ^ (52 - n.log2) := Nat.mul_le_mul_right _ hhigh.le
        _ = 2 ^ n.log2 * 2 ^ (52 - n.log2) * 2 := by ring
        _ = 2 ^ 53 := by rw [hscale, ← pow_succ]
  · have hscale : 2 ^ 52 * 2 ^ (n.log2 - 52) = 2 ^ n.log2 := by
      rw [← pow_add]
      congr 1
      omega
    refine roundHalfEven_mem (Nat.two_pow_pos _) (hscale ▸ hlow) ?_
    calc n
        ≤ 2 ^ n.log2 * 2 := (pow_succ 2 n.log2 ▸ hhigh).le
      _ = 2 ^ 53 * 2 ^ (n.log2 - 52) := by rw [← hscale]; ring

theorem significandOf_mono {m n : ℕ} (h : m ≤ n) (hlog : m.log2 = n.log2) :
    significandOf m ≤ significandOf n := by
  unfold significandOf
  rw [hlog]
  split_ifs
  · exact Nat.mul_le_mul_right _ h
  · exact roundHalfEven_mono (Nat.two_pow_pos _) (Nat.two_pow_pos _) (Nat.mul_le_mul_right _ h)

theorem log2_mono {m n : ℕ} (hm : m ≠ 0) (h : m ≤ n) : m.log2 ≤ n.log2 :=
  (Nat.le_log2 (by omega)).mpr ((Nat.log2_self_le hm).trans h)

/-- The magnitude of a greater integer is no less; the carry out of the significand reaches the
next exponent and no further. -/
theorem ofQuotient_mono {m n : ℕ} (h : m ≤ n) : ofQuotient m 1 ≤ ofQuotient n 1 := by
  obtain rfl | hm := eq_or_ne m 0
  · exact Nat.zero_le _
  have hn : n ≠ 0 := by omega
  rw [ofQuotient_one hm, ofQuotient_one hn]
  refine min_le_min_right _ ?_
  obtain hlog | hlog := (log2_mono hm h).eq_or_lt
  · have hsig := significandOf_mono h hlog
    omega
  · have hcarry := (significandOf_mem hm).2
    have hnext := (significandOf_mem hn).1
    omega

theorem ofQuotient_le (n d : ℕ) : ofQuotient n d ≤ infMagnitude := by
  unfold ofQuotient
  split_ifs
  · exact Nat.zero_le _
  · exact min_le_right _ _

/-! ### Data -/

theorem ofMagnitude_fields {negative : Bool} {m : ℕ} (hm : m < 2 ^ 63) :
    (ofMagnitude negative m).magnitude = m ∧ (ofMagnitude negative m).isNegative = negative := by
  unfold magnitude isNegative ofMagnitude
  rw [UInt64.toNat_ofNat']
  cases negative
  · simp only [Bool.false_eq_true, if_false, decide_eq_false_iff_not]
    omega
  · simp only [if_true, decide_eq_true_eq]
    omega

theorem ofInt_fields (i : ℤ) :
    (ofInt i).magnitude = ofQuotient i.natAbs 1 ∧ (ofInt i).isNegative = decide (i < 0) :=
  ofMagnitude_fields ((ofQuotient_le _ _).trans_lt (by unfold infMagnitude; omega))

/-- A converted integer is a number. -/
theorem isNaN_ofInt (i : ℤ) : (ofInt i).isNaN = false := by
  unfold isNaN
  rw [(ofInt_fields i).1, decide_eq_false_iff_not, not_lt]
  exact ofQuotient_le _ _

/-- The conversion of integers keeps their order, not strictly. -/
theorem rank_ofInt_mono {i j : ℤ} (h : i ≤ j) : (ofInt i).rank ≤ (ofInt j).rank := by
  unfold rank
  rw [(ofInt_fields i).1, (ofInt_fields i).2, (ofInt_fields j).1, (ofInt_fields j).2]
  by_cases hi : i < 0
  · by_cases hj : j < 0
    · have hmono := ofQuotient_mono (show j.natAbs ≤ i.natAbs by omega)
      simp only [hi, hj, decide_true, if_true]
      omega
    · simp only [hi, hj, decide_true, decide_false, if_true, Bool.false_eq_true, if_false]
      omega
  · have hj : ¬ j < 0 := by omega
    have hmono := ofQuotient_mono (show i.natAbs ≤ j.natAbs by omega)
    simp only [hi, hj, decide_false, Bool.false_eq_true, if_false]
    omega

end Binary64
