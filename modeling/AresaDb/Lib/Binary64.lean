import Mathlib

/-! # Binary64 numbers

IEEE binary64 data as their 64 bits: comparison, negation, conversion from integers, reading and
printing of decimals.  Every finite datum is an integer multiple of `2 ^ -1074`, so comparison is
comparison of signed magnitudes (`rank`), and rounding is to the nearest datum, ties to even, of an
exact quotient of natural numbers.

Comparisons with a NaN are false, so equality is symmetric but not reflexive. -/

/-- The bits of a binary64 datum. -/
structure Binary64 where
  bits : UInt64
deriving DecidableEq, Repr

namespace Binary64

/-- The bits without the sign. -/
def magnitude (x : Binary64) : ℕ := x.bits.toNat % 2 ^ 63

def isNegative (x : Binary64) : Bool := decide (2 ^ 63 ≤ x.bits.toNat)

/-- The magnitude of the infinities; the magnitudes above it are NaNs. -/
def infMagnitude : ℕ := 2047 * 2 ^ 52

def isNaN (x : Binary64) : Bool := decide (infMagnitude < x.magnitude)

/-- The place of a datum that is no NaN in the numerical order; both zeros have rank zero. -/
def rank (x : Binary64) : ℤ := if x.isNegative then -x.magnitude else x.magnitude

/-- `==` -/
def eq (x y : Binary64) : Bool := !x.isNaN && !y.isNaN && decide (x.rank = y.rank)

/-- `<` -/
def lt (x y : Binary64) : Bool := !x.isNaN && !y.isNaN && decide (x.rank < y.rank)

/-- `<=` -/
def le (x y : Binary64) : Bool := !x.isNaN && !y.isNaN && decide (x.rank ≤ y.rank)

/-- Unary `-` -/
def neg (x : Binary64) : Binary64 := ⟨x.bits ^^^ 0x8000000000000000⟩

theorem eq_comm (x y : Binary64) : x.eq y = y.eq x := by
  unfold eq
  rw [Bool.and_comm (!x.isNaN)]
  congr 1
  exact decide_eq_decide.mpr ⟨Eq.symm, Eq.symm⟩

/-- Negation changes the sign alone. -/
theorem neg_fields (x : Binary64) :
    x.neg.magnitude = x.magnitude ∧ x.neg.isNegative = !x.isNegative := by
  have hlt : x.bits.toNat < 2 ^ 64 := x.bits.toNat_lt
  have hneg : x.neg.bits.toNat = x.bits.toNat ^^^ 2 ^ 63 := UInt64.toNat_xor _ _
  unfold magnitude isNegative
  rw [hneg]
  constructor
  · rw [Nat.xor_mod_two_pow, Nat.mod_self, Nat.xor_zero]
  · have hdiv : (x.bits.toNat ^^^ 2 ^ 63) / 2 ^ 63 = x.bits.toNat / 2 ^ 63 ^^^ 1 :=
      Nat.xor_div_two_pow
    rw [← decide_not, decide_eq_decide]
    obtain hbit | hbit : x.bits.toNat / 2 ^ 63 = 0 ∨ x.bits.toNat / 2 ^ 63 = 1 := by omega
    · rw [hbit] at hdiv
      change _ = 1 at hdiv
      omega
    · rw [hbit] at hdiv
      change _ = 0 at hdiv
      omega

theorem neg_neg (x : Binary64) : x.neg.neg = x := by
  unfold neg
  rw [UInt64.xor_assoc, UInt64.xor_self, UInt64.xor_zero]

/-- Negation reverses the order. -/
theorem lt_neg (x y : Binary64) : x.neg.lt y.neg = y.lt x := by
  have hrank : ∀ z : Binary64, z.neg.rank = -z.rank := by
    intro z
    unfold rank
    rw [(neg_fields z).1, (neg_fields z).2]
    cases z.isNegative <;> simp
  have hnan : ∀ z : Binary64, z.neg.isNaN = z.isNaN := by
    intro z
    unfold isNaN
    rw [(neg_fields z).1]
  unfold lt
  rw [hrank, hrank, hnan, hnan, Bool.and_comm (!x.isNaN)]
  congr 1
  exact decide_eq_decide.mpr neg_lt_neg_iff
/-! ### Rounding -/

/-- The quotient rounded to the nearest integer, ties to even. -/
def roundHalfEven (n d : ℕ) : ℕ :=
  let q := n / d
  let r := n % d
  if 2 * r < d then q else if d < 2 * r then q + 1 else q + q % 2

/-- The magnitude of the datum nearest to `num / den`.  With `2 ^ e ≤ num / den < 2 ^ (e + 1)` the
significand has its last place at `2 ^ (e - 52)`, but never below `2 ^ -1074`; a carry out of the
significand goes into the exponent field by itself. -/
def ofQuotient (num den : ℕ) : ℕ :=
  if num = 0 then 0
  else
    let e₀ : ℤ := (Nat.log2 num : ℤ) - Nat.log2 den
    let atLeast : Bool :=
      if 0 ≤ e₀ then decide (den * 2 ^ e₀.toNat ≤ num) else decide (den ≤ num * 2 ^ (-e₀).toNat)
    let e := max (if atLeast then e₀ else e₀ - 1) (-1022)
    let shift := 52 - e
    let m :=
      if 0 ≤ shift then roundHalfEven (num * 2 ^ shift.toNat) den
      else roundHalfEven num (den * 2 ^ (-shift).toNat)
    min ((e + 1022).toNat * 2 ^ 52 + m) infMagnitude

/-- A datum from its sign and magnitude. -/
def ofMagnitude (negative : Bool) (m : ℕ) : Binary64 :=
  ⟨UInt64.ofNat (if negative then 2 ^ 63 + m else m)⟩

/-- `i as f64` -/
def ofInt (i : ℤ) : Binary64 := ofMagnitude (decide (i < 0)) (ofQuotient i.natAbs 1)

/-! ### Decimals -/

def digitValue (c : Char) : ℕ := c.toNat - '0'.toNat

/-- The number a digit string spells. -/
def digitsValue (ds : List Char) : ℕ := ds.foldl (fun acc c => acc * 10 + digitValue c) 0

/-- The exponent part of a decimal: nothing, or `e`, a sign and digits. -/
def parseExponent : List Char → Option ℤ
  | [] => some 0
  | e :: rest =>
      if e = 'e' ∨ e = 'E' then
        let (negative, ds) := match rest with
          | '-' :: ds => (true, ds)
          | '+' :: ds => (false, ds)
          | ds => (false, ds)
        if ds ≠ [] ∧ ds.all Char.isDigit then
          some (if negative then -(digitsValue ds : ℤ) else digitsValue ds)
        else none
      else none

/-- The datum nearest to an unsigned decimal, such as `12`, `12.5`, `.5` or `1.2e-3`. -/
def parse (s : String) : Option Binary64 :=
  let whole := s.toList.takeWhile Char.isDigit
  let rest := s.toList.dropWhile Char.isDigit
  let (frac, tail) := match rest with
    | '.' :: rest => (rest.takeWhile Char.isDigit, rest.dropWhile Char.isDigit)
    | rest => ([], rest)
  if whole ++ frac = [] then none
  else
    (parseExponent tail).map fun e : ℤ =>
      let place : ℤ := e - frac.length
      let n := digitsValue (whole ++ frac)
      ofMagnitude false
        (if 0 ≤ place then ofQuotient (n * 10 ^ place.toNat) 1
          else ofQuotient n (10 ^ (-place).toNat))

/-- The digits of `n`, at least `width` of them. -/
def padded (width n : ℕ) : String :=
  let ds := toString n
  String.ofList (List.replicate (width - ds.length) '0') ++ ds

/-- `{:.k}`: `k` digits after the point. -/
def toFixed (k : ℕ) (x : Binary64) : String :=
  let sign := if x.isNegative then "-" else ""
  if x.isNaN then "NaN"
  else if x.magnitude = infMagnitude then sign ++ "inf"
  else
    let field : ℕ := x.magnitude / 2 ^ 52
    let frac : ℕ := x.magnitude % 2 ^ 52
    let m : ℕ := if field = 0 then frac else 2 ^ 52 + frac
    let e : ℤ := (max field 1 : ℕ) - 1075
    let n :=
      if 0 ≤ e then m * 2 ^ e.toNat * 10 ^ k else roundHalfEven (m * 10 ^ k) (2 ^ (-e).toNat)
    sign ++ toString (n / 10 ^ k) ++ (if k = 0 then "" else "." ++ padded k (n % 10 ^ k))

example : (parse "0.1").map Binary64.bits = some 0x3fb999999999999a := by decide +kernel

end Binary64
