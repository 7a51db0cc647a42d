import AresaDb.Lib.Framing
import AresaDb.Lib.Rounding

/-! # Fixed-point texts

A datum printed with `k` digits after the point shows its sign and the count of `10 ^ -k` nearest to
it (`toFixed_eq_iff`, `fixedBody_eq_finite`).  The count grows with the magnitude
(`fixedCount_mono`), so a datum has a text of its own exactly when the data next to it have other
counts (`toFixed_unique_iff`). -/

namespace Binary64

/-! ### Magnitudes as numbers -/

/-- The finite data are multiples of `2 ^ -1074`, which is so many of them in one. -/
def unitsInOne : ℕ := 2 ^ 1074

theorem unitsInOne_pos : 0 < unitsInOne := by
  unfold unitsInOne
  positivity

/-- The multiple of `2 ^ -1074` that a finite datum of the magnitude is. -/
def units (m : ℕ) : ℕ :=
  (if m / 2 ^ 52 = 0 then m % 2 ^ 52 else 2 ^ 52 + m % 2 ^ 52) * 2 ^ (max (m / 2 ^ 52) 1 - 1)

/-- A greater magnitude is a greater number. -/
theorem units_strictMono : StrictMono units := by
  refine strictMono_nat_of_lt_succ fun m => ?_
  have hpos : 0 < 2 ^ (max (m / 2 ^ 52) 1 - 1) := Nat.two_pow_pos _
  unfold units
  by_cases hfield : (m + 1) / 2 ^ 52 = m / 2 ^ 52
  · rw [hfield]
    refine Nat.mul_lt_mul_of_pos_right ?_ hpos
    split_ifs <;> omega
  · -- The fraction is full, and the next magnitude is in the next field.
    have hnext : (m + 1) / 2 ^ 52 = m / 2 ^ 52 + 1 := by omega
    have hzero : (m + 1) % 2 ^ 52 = 0 := by omega
    rw [hnext, if_neg (Nat.succ_ne_zero _), hzero]
    split_ifs with hlow
    · rw [hlow]
      norm_num
      omega
    · have hexp : 2 ^ (max (m / 2 ^ 52 + 1) 1 - 1) = 2 * 2 ^ (max (m / 2 ^ 52) 1 - 1) := by
        rw [← pow_succ']
        congr 1
        omega
      rw [hexp, ← mul_assoc]
      refine Nat.mul_lt_mul_of_pos_right ?_ hpos
      omega

/-- The count of `10 ^ -k` nearest to the finite data of a magnitude. -/
def fixedCount (k m : ℕ) : ℕ :=
  let field : ℕ := m / 2 ^ 52
  let frac : ℕ := m % 2 ^ 52
  let significand : ℕ := if field = 0 then frac else 2 ^ 52 + frac
  let e : ℤ := (max field 1 : ℕ) - 1075
  if 0 ≤ e then significand * 2 ^ e.toNat * 10 ^ k
  else roundHalfEven (significand * 10 ^ k) (2 ^ (-e).toNat)

theorem roundHalfEven_scale {n d c : ℕ} (hd : 0 < d) (hc : 0 < c) :
    roundHalfEven (n * c) (d * c) = roundHalfEven n d := by
  have hswap : n * c * d = n * (d * c) := by ring
  exact le_antisymm (roundHalfEven_mono (Nat.mul_pos hd hc) hd hswap.le)
    (roundHalfEven_mono hd (Nat.mul_pos hd hc) hswap.ge)

theorem roundHalfEven_mul (n : ℕ) {c : ℕ} (hc : 0 < c) : roundHalfEven (n * c) c = n := by
  have hscale : roundHalfEven (n * c) (1 * c) = roundHalfEven n 1 := roundHalfEven_scale one_pos hc
  rwa [one_mul, roundHalfEven_one] at hscale

theorem fixedCount_eq (k m : ℕ) :
    fixedCount k m = roundHalfEven (units m * 10 ^ k) unitsInOne := by
  unfold fixedCount units
  dsimp only
  generalize hsig : (if m / 2 ^ 52 = 0 then m % 2 ^ 52 else 2 ^ 52 + m % 2 ^ 52) = significand
  generalize hfield : max (m / 2 ^ 52) 1 = field
  have hpos : 1 ≤ field := hfield ▸ le_max_right _ _
  split_ifs with hle
  · have hexp : 2 ^ (field - 1) = 2 ^ ((field : ℤ) - 1075).toNat * unitsInOne := by
      rw [unitsInOne, ← pow_add]
      congr 1
      omega
    have hmul : significand * (2 ^ ((field : ℤ) - 1075).toNat * unitsInOne) * 10 ^ k =
        significand * 2 ^ ((field : ℤ) - 1075).toNat * 10 ^ k * unitsInOne := by ring
    rw [hexp, hmul, roundHalfEven_mul _ unitsInOne_pos]
  · have hexp : 2 ^ (-((field : ℤ) - 1075)).toNat * 2 ^ (field - 1) = unitsInOne := by
      rw [unitsInOne, ← pow_add]
      congr 1
      omega
    rw [← hexp, mul_right_comm]
    exact (roundHalfEven_scale (Nat.two_pow_pos _) (Nat.two_pow_pos _)).symm

/-- A greater datum is no fewer units. -/
theorem fixedCount_mono (k : ℕ) : Monotone (fixedCount k) := by
  intro m n h
  rw [fixedCount_eq, fixedCount_eq]
  refine roundHalfEven_mono unitsInOne_pos unitsInOne_pos (Nat.mul_le_mul_right _ ?_)
  exact Nat.mul_le_mul_right _ (units_strictMono.monotone h)

/-! ### Texts of counts -/

theorem toList_toString (n : ℕ) : (toString n).toList = Nat.toDigits 10 n := Nat.toList_repr

theorem toDigits_inj {m n : ℕ} (h : Nat.toDigits 10 m = Nat.toDigits 10 n) : m = n := by
  have hvalue := congrArg (fun ds => Nat.ofDigitChars 10 ds 0) h
  simpa only [Nat.ofDigitChars_ten_toDigits] using hvalue

theorem toList_padded (width n : ℕ) :
    (padded width n).toList =
      List.replicate (width - (toString n).length) '0' ++ Nat.toDigits 10 n := by
  simp [padded]

theorem padded_inj {width m n : ℕ} (h : (padded width m).toList = (padded width n).toList) :
    m = n := by
  have hvalue := congrArg (fun ds => Nat.ofDigitChars 10 ds 0) h
  simpa only [toList_padded, Nat.ofDigitChars_append, Nat.ofDigitChars_replicate_zero, mul_zero,
    Nat.ofDigitChars_ten_toDigits] using hvalue

/-- What follows the sign. -/
def fixedBody (k m : ℕ) : List Char :=
  if m = infMagnitude then "inf".toList
  else
    Nat.toDigits 10 (fixedCount k m / 10 ^ k) ++ (if k = 0 then [] else
      '.' :: (padded k (fixedCount k m % 10 ^ k)).toList)

theorem toList_toFixed {x : Binary64} (h : x.isNaN = false) (k : ℕ) :
    (x.toFixed k).toList = (if x.isNegative then ['-'] else []) ++ fixedBody k x.magnitude := by
  have hsign : (if x.isNegative then "-" else "").toList = if x.isNegative then ['-'] else [] := by
    cases x.isNegative <;> rfl
  unfold toFixed fixedBody fixedCount
  dsimp only
  rw [h, if_neg Bool.false_ne_true]
  by_cases hinf : x.magnitude = infMagnitude
  · rw [if_pos hinf, if_pos hinf, String.toList_append, hsign]
  · rw [if_neg hinf, if_neg hinf, String.toList_append, String.toList_append, hsign,
      toList_toString, List.append_assoc]
    by_cases hk : k = 0
    · rw [if_pos hk, if_pos hk]
      rfl
    · rw [if_neg hk, if_neg hk, String.toList_append]
      rfl

/-- The characters of a text are digits, a point and the letters of the infinities. -/
theorem mem_fixedBody {k m : ℕ} {c : Char} (h : c ∈ fixedBody k m) :
    c.isDigit ∨ c = '.' ∨ m = infMagnitude ∧ c ∈ ['i', 'n', 'f'] := by
  have hdigits : ∀ n, c ∈ Nat.toDigits 10 n → c.isDigit :=
    fun n hc => Nat.isDigit_of_mem_toDigits (by decide) (by decide) hc
  unfold fixedBody at h
  split_ifs at h with hinf hk
  · exact .inr (.inr ⟨hinf, h⟩)
  · rw [List.append_nil] at h
    exact .inl (hdigits _ h)
  · rw [List.mem_append, List.mem_cons, toList_padded, List.mem_append] at h
    obtain h | h | h | h := h
    · exact .inl (hdigits _ h)
    · exact .inr (.inl h)
    · rw [List.eq_of_mem_replicate h]
      exact .inl rfl
    · exact .inl (hdigits _ h)

/-! ### Data with one text -/

theorem fixedBody_infinite {k m : ℕ} (h : 'i' ∈ fixedBody k m) : m = infMagnitude := by
  obtain hdigit | hpoint | hinf := mem_fixedBody h
  · exact absurd hdigit (by decide)
  · exact absurd hpoint (by decide)
  · exact hinf.1

/-- The infinite magnitude alone has the letter i. -/
theorem fixedBody_eq_infinite {k m : ℕ} (h : fixedBody k m = fixedBody k infMagnitude) :
    m = infMagnitude := by
  refine fixedBody_infinite (k := k) ?_
  rw [h, fixedBody, if_pos rfl]
  decide

/-- A text of a finite magnitude shows its count. -/
theorem fixedBody_eq_finite {k m n : ℕ} (hk : k ≠ 0) (hm : m ≠ infMagnitude)
    (h : fixedBody k n = fixedBody k m) :
    n ≠ infMagnitude ∧ fixedCount k n = fixedCount k m := by
  have hn : n ≠ infMagnitude := by
    rintro rfl
    exact hm (fixedBody_eq_infinite h.symm)
  have hpoint : ∀ c, '.' ∉ Nat.toDigits 10 c := fun c hc =>
    absurd (Nat.isDigit_of_mem_toDigits (by decide) (by decide) hc) (by decide)
  refine ⟨hn, ?_⟩
  unfold fixedBody at h
  rw [if_neg hn, if_neg hm, if_neg hk, if_neg hk] at h
  obtain ⟨hwhole, hrest⟩ := Framing.append_sep_inj (hpoint _) (hpoint _) h
  have hquot := toDigits_inj hwhole
  have hmod := padded_inj hrest
  rw [← Nat.div_add_mod (fixedCount k n) (10 ^ k), hquot, hmod, Nat.div_add_mod]

/-- A NaN alone has the letter N. -/
theorem isNaN_of_toFixed {x y : Binary64} {k : ℕ} (hx : x.isNaN = false)
    (h : y.toFixed k = x.toFixed k) : y.isNaN = false := by
  by_contra hy
  have hnan : y.toFixed k = "NaN" := by
    unfold toFixed
    rw [Bool.not_eq_false] at hy
    simp [hy]
  have hN : 'N' ∈ (x.toFixed k).toList := by
    rw [← h, hnan]
    decide
  rw [toList_toFixed hx, List.mem_append] at hN
  obtain hN | hN := hN
  · split_ifs at hN <;> simp at hN
  · have hbody := mem_fixedBody hN
    revert hbody
    simp

/-- A text shows the sign. -/
theorem toFixed_eq_iff {x y : Binary64} {k : ℕ} (hx : x.isNaN = false) :
    y.toFixed k = x.toFixed k ↔ y.isNaN = false ∧ y.isNegative = x.isNegative ∧
      fixedBody k y.magnitude = fixedBody k x.magnitude := by
  have hsign : ∀ m, '-' ∉ fixedBody k m := by
    intro m hm
    have hbody := mem_fixedBody hm
    revert hbody
    simp
  constructor
  · intro h
    have hy := isNaN_of_toFixed hx h
    have hlist := congrArg String.toList h
    rw [toList_toFixed hx, toList_toFixed hy] at hlist
    have hnegative : y.isNegative = x.isNegative := by
      have hmem : '-' ∈ (if y.isNegative then ['-'] else []) ++ fixedBody k y.magnitude ↔
          '-' ∈ (if x.isNegative then ['-'] else []) ++ fixedBody k x.magnitude := by rw [hlist]
      simp only [List.mem_append, hsign, or_false] at hmem
      cases hxs : x.isNegative <;> cases hys : y.isNegative <;> simp_all
    rw [hnegative] at hlist
    exact ⟨hy, hnegative, List.append_cancel_left hlist⟩
  · rintro ⟨hy, hnegative, hbody⟩
    rw [← String.toList_inj, toList_toFixed hx, toList_toFixed hy, hnegative, hbody]

theorem ext_fields {x y : Binary64} (hmag : y.magnitude = x.magnitude)
    (hneg : y.isNegative = x.isNegative) : y = x := by
  have hx : x.bits.toNat < 2 ^ 64 := x.bits.toNat_lt
  have hy : y.bits.toNat < 2 ^ 64 := y.bits.toNat_lt
  unfold magnitude at hmag
  unfold isNegative at hneg
  rw [decide_eq_decide] at hneg
  have hbits : y.bits.toNat = x.bits.toNat := by omega
  exact congrArg Binary64.mk (UInt64.toNat_inj.mp hbits)

/-- A number that is infinite, or not the same number of `10 ^ -k` as the data next to it. -/
def StandsOut (k : ℕ) (x : Binary64) : Prop :=
  x.isNaN = false ∧ (x.magnitude = infMagnitude ∨
    ∀ m < infMagnitude, m + 1 = x.magnitude ∨ m = x.magnitude + 1 →
      fixedCount k m ≠ fixedCount k x.magnitude)

/-- No other finite magnitude has the count of one that stands out. -/
theorem eq_of_fixedCount {k m n : ℕ}
    (h : ∀ m' < infMagnitude, m' + 1 = m ∨ m' = m + 1 → fixedCount k m' ≠ fixedCount k m)
    (hm : m < infMagnitude) (hn : n < infMagnitude) (hcount : fixedCount k n = fixedCount k m) :
    n = m := by
  obtain hlt | heq | hgt := lt_trichotomy n m
  · -- The count of the magnitude before `m` lies between the two.
    have hbetween := fixedCount_mono k (show n ≤ m - 1 by omega)
    have hbelow := fixedCount_mono k (show m - 1 ≤ m by omega)
    exact absurd (by omega) (h (m - 1) (by omega) (by omega))
  · exact heq
  · have hbetween := fixedCount_mono k (show m + 1 ≤ n by omega)
    have habove := fixedCount_mono k (show m ≤ m + 1 by omega)
    exact absurd (by omega) (h (m + 1) (by omega) (by omega))

/-- A datum has a text of its own exactly when it stands out. -/
theorem toFixed_unique_iff {k : ℕ} (hk : k ≠ 0) {x : Binary64} :
    (∀ y : Binary64, y.toFixed k = x.toFixed k → y = x) ↔ x.StandsOut k := by
  constructor
  · intro h
    have hx : x.isNaN = false := by
      by_contra hx
      rw [Bool.not_eq_false] at hx
      obtain ⟨hmag, hneg⟩ := neg_fields x
      have hx' : x.neg.isNaN = true := by
        unfold isNaN at hx ⊢
        rwa [hmag]
      have hself : x.neg = x := h x.neg (by simp [toFixed, hx, hx'])
      rw [hself] at hneg
      cases hs : x.isNegative <;> simp [hs] at hneg
    refine ⟨hx, or_iff_not_imp_left.mpr fun hinf m hm hnext hcount => ?_⟩
    have hlt : m < 2 ^ 63 := hm.trans (by decide)
    have hfields : (ofMagnitude x.isNegative m).magnitude = m ∧
        (ofMagnitude x.isNegative m).isNegative = x.isNegative := ofMagnitude_fields hlt
    obtain ⟨hmag, hneg⟩ := hfields
    have hy : (ofMagnitude x.isNegative m).isNaN = false := by
      unfold isNaN
      rw [hmag, decide_eq_false_iff_not, not_lt]
      exact hm.le
    have hbody : fixedBody k m = fixedBody k x.magnitude := by
      unfold fixedBody
      rw [if_neg hm.ne, if_neg hinf, hcount]
    have hself := h _ ((toFixed_eq_iff hx).mpr ⟨hy, hneg, hmag.symm ▸ hbody⟩)
    rw [hself] at hmag
    omega
  · rintro ⟨hx, hout⟩ y htext
    obtain ⟨hy, hneg, hbody⟩ := (toFixed_eq_iff hx).mp htext
    refine ext_fields ?_ hneg
    by_cases hinf : x.magnitude = infMagnitude
    · rw [hinf] at hbody ⊢
      exact fixedBody_eq_infinite hbody
    · obtain ⟨hne, hcount⟩ := fixedBody_eq_finite hk hinf hbody
      have hbound : ∀ z : Binary64, z.isNaN = false → z.magnitude ≠ infMagnitude →
          z.magnitude < infMagnitude := by
        intro z hz hne
        unfold isNaN at hz
        rw [decide_eq_false_iff_not, not_lt] at hz
        exact hz.lt_of_ne hne
      exact eq_of_fixedCount (hout.resolve_left hinf) (hbound x hx hinf) (hbound y hy hne) hcount

end Binary64
