import AresaDb.Lib.Binary64

/-! # Float literals

Reading of floats as texts with a sign, the names of the infinities and of NaN in any case, and the
nearest `f32` to a decimal, widened to a binary64 datum. -/

namespace Binary64

def infinity : Binary64 := ofMagnitude false infMagnitude

def nan : Binary64 := ofMagnitude false (infMagnitude + 2 ^ 51)

/-- The magnitude of the `f32` nearest to `num / den`, widened.  The significand has its last place
at `2 ^ (e - 23)`, but never below `2 ^ -149`. -/
def ofQuotient32 (num den : ℕ) : ℕ :=
  if num = 0 then 0
  else
    let e₀ : ℤ := (Nat.log2 num : ℤ) - Nat.log2 den
    let atLeast : Bool :=
      if 0 ≤ e₀ then decide (den * 2 ^ e₀.toNat ≤ num) else decide (den ≤ num * 2 ^ (-e₀).toNat)
    let shift := 23 - max (if atLeast then e₀ else e₀ - 1) (-126)
    let (n, d) :=
      if 0 ≤ shift then (roundHalfEven (num * 2 ^ shift.toNat) den, 2 ^ shift.toNat)
      else (roundHalfEven num (den * 2 ^ (-shift).toNat) * 2 ^ (-shift).toNat, 1)
    if 2 ^ 128 * d ≤ n then infMagnitude else ofQuotient n d

/-- An unsigned decimal as a quotient. -/
def decimalQuotient (s : List Char) : Option (ℕ × ℕ) :=
  let whole := s.takeWhile Char.isDigit
  let (frac, tail) := match s.dropWhile Char.isDigit with
    | '.' :: rest => (rest.takeWhile Char.isDigit, rest.dropWhile Char.isDigit)
    | rest => ([], rest)
  if whole ++ frac = [] then none
  else
    (parseExponent tail).map fun e : ℤ =>
      let place : ℤ := e - frac.length
      let n := digitsValue (whole ++ frac)
      if 0 ≤ place then (n * 10 ^ place.toNat, 1) else (n, 10 ^ (-place).toNat)

/-- A float literal, its decimal rounded by `round`. -/
def parseFloat (round : ℕ → ℕ → ℕ) (s : List Char) : Option Binary64 :=
  let unsigned (s : List Char) : Option Binary64 :=
    let lower := s.map Char.toLower
    if lower = "inf".toList ∨ lower = "infinity".toList then some infinity
    else if lower = "nan".toList then some nan
    else (decimalQuotient s).map fun q => ofMagnitude false (round q.1 q.2)
  match s with
  | '-' :: s => (unsigned s).map neg
  | '+' :: s => unsigned s
  | s => unsigned s

/-- `str::parse::<f64>` -/
def parseF64 (s : List Char) : Option Binary64 := parseFloat ofQuotient s

/-- `str::parse::<f32>`, widened. -/
def parseF32 (s : List Char) : Option Binary64 := parseFloat ofQuotient32 s

theorem map_quotient (c : Prop) [Decidable c] (x : Option ℤ) (f : ℤ → ℕ × ℕ) :
    (if c then none else x.map f).map (fun q => ofMagnitude false (ofQuotient q.1 q.2)) =
      if c then none else x.map fun e => ofMagnitude false (ofQuotient (f e).1 (f e).2) := by
  split_ifs
  · rfl
  · rw [Option.map_map]
    rfl

/-- An unsigned decimal is read as `parse` reads it. -/
theorem decimalQuotient_parse (s : String) :
    (decimalQuotient s.toList).map (fun q => ofMagnitude false (ofQuotient q.1 q.2)) = parse s := by
  have hround : ∀ (place : ℤ) (n : ℕ),
      ofMagnitude false (if 0 ≤ place then ofQuotient (n * 10 ^ place.toNat) 1
        else ofQuotient n (10 ^ (-place).toNat)) =
      ofMagnitude false (ofQuotient
        (if 0 ≤ place then (n * 10 ^ place.toNat, 1) else (n, 10 ^ (-place).toNat)).1
        (if 0 ≤ place then (n * 10 ^ place.toNat, 1) else (n, 10 ^ (-place).toNat)).2) := by
    intro place n
    split_ifs <;> rfl
  unfold decimalQuotient parse
  dsimp only
  rw [map_quotient]
  refine ite_congr rfl (fun _ => rfl) fun _ => ?_
  exact Option.map_congr fun e _ => (hround _ _).symm

example : (parseF32 "-0.1".toList).map Binary64.bits = some 0xbfb99999a0000000 := by decide +kernel

end Binary64
