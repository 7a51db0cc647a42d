import Mathlib

/-! # Byte strings and machine words as linear orders

Byte strings are compared lexicographically, byte by byte, a proper beginning of a string
being smaller than the string; machine words are compared as numbers.  Both orders are the
ones the core library ships (`<`, `≤`, `compare`); this file bundles them as `LinearOrder`s,
so that Mathlib's order lemmas and the ordered maps of `OrdMap` apply to them.

* `beBytes`/`ofBeBytes` are the eight big-endian bytes of a 64-bit word and their inverse;
* `lt_add_one_of_ne_max` is the only fact about wrap-around addition used later: a word that
  is not the largest one is smaller than its successor;
* the strings that start with a fixed `p` form an interval (`prefix_of_between`), and two
  strings neither of which starts the other order all their extensions the same way
  (`append_lt_append_of_lt`). -/

namespace ByteOrder

/-- A byte string. -/
abbrev Bytes := List UInt8

/-! ### Machine words -/

instance linearOrderUInt64 : LinearOrder UInt64 where
  toLE := instLEUInt64
  toLT := instLTUInt64
  toMin := instMinUInt64
  toMax := instMaxUInt64
  toOrd := UInt64.instOrd
  toDecidableLE := fun a b => UInt64.decLe a b
  toDecidableLT := fun a b => UInt64.decLt a b
  toDecidableEq := instDecidableEqUInt64
  le_refl := UInt64.le_refl
  le_trans _ _ _ := UInt64.le_trans
  le_antisymm _ _ := UInt64.le_antisymm
  le_total := UInt64.le_total
  lt_iff_le_not_ge _ _ := Std.lt_iff_le_and_not_ge
  min_def _ _ := rfl
  max_def _ _ := rfl
  compare_eq_compareOfLessAndEq _ _ := rfl

/-- The largest 64-bit word. -/
def u64Max : UInt64 := 18446744073709551615

theorem lt_add_one_of_ne_max {n : UInt64} (h : n ≠ u64Max) : n < n + 1 := by
  unfold u64Max at h
  grind

theorem add_one_le_of_lt {m n : UInt64} (h : m < n) : m + 1 ≤ n := by
  grind

/-! ### Lexicographic order -/

theorem compare_cons (x y : UInt8) (xs ys : Bytes) :
    compare (x :: xs) (y :: ys) = (compare x y).then (compare xs ys) :=
  List.compareLex_cons_cons

theorem compare_eq_compareOfLessAndEq (a b : Bytes) : compare a b = compareOfLessAndEq a b := by
  induction a generalizing b with
  | nil => cases b <;> rfl
  | cons x xs ih =>
      cases b with
      | nil => rfl
      | cons y ys =>
          rw [compare_cons, ih]
          have hx : compare x y = compareOfLessAndEq x y := rfl
          rw [hx]
          unfold compareOfLessAndEq
          simp only [List.cons_lt_cons_iff, List.cons.injEq]
          by_cases hlt : x < y
          · simp [hlt]
          · by_cases heq : x = y
            · subst heq
              simp [hlt]
            · simp [hlt, heq]

instance linearOrderBytes : LinearOrder Bytes where
  toLE := List.instLE
  toLT := List.instLT
  toOrd := List.instOrd
  toDecidableLE := fun a b => List.decidableLE a b
  toDecidableLT := fun a b => List.decidableLT a b
  toDecidableEq := instDecidableEqList
  le_refl := Std.le_refl
  le_trans _ _ _ := Std.le_trans
  le_antisymm _ _ := Std.le_antisymm
  le_total _ _ := Std.le_total
  lt_iff_le_not_ge _ _ := Std.lt_iff_le_and_not_ge
  compare_eq_compareOfLessAndEq := compare_eq_compareOfLessAndEq

theorem cons_lt_cons {x y : UInt8} {xs ys : Bytes} :
    x :: xs < y :: ys ↔ x < y ∨ x = y ∧ xs < ys := List.cons_lt_cons_iff

/-- A common beginning does not matter. -/
theorem append_lt_append_left_iff (p a b : Bytes) : p ++ a < p ++ b ↔ a < b := by
  induction p with
  | nil => rfl
  | cons x p ih =>
      rw [List.cons_append, List.cons_append, cons_lt_cons]
      constructor
      · rintro (h | ⟨_, h⟩)
        · exact absurd h (UInt8.lt_irrefl x)
        · exact ih.mp h
      · intro h
        exact Or.inr ⟨rfl, ih.mpr h⟩

/-- Strings that differ before either of them ends order all their extensions. -/
theorem append_lt_append_of_lt {p q : Bytes} (h : p < q) (hpq : ¬ p <+: q) (a b : Bytes) :
    p ++ a < q ++ b := by
  induction p generalizing q with
  | nil => exact absurd (List.nil_prefix) hpq
  | cons x p ih =>
      cases q with
      | nil => simp at h
      | cons y q =>
          rw [List.cons_append, List.cons_append, cons_lt_cons]
          rcases cons_lt_cons.mp h with hlt | ⟨rfl, hlt⟩
          · exact Or.inl hlt
          · refine Or.inr ⟨rfl, ih hlt ?_⟩
            intro hp
            exact hpq ((List.prefix_cons_inj x).mpr hp)

/-- The strings that start with `p` form an interval. -/
theorem prefix_of_between {p a b y : Bytes} (h₁ : p ++ a ≤ y) (h₂ : y ≤ p ++ b) : p <+: y := by
  induction p generalizing y with
  | nil => exact List.nil_prefix
  | cons x p ih =>
      cases y with
      | nil =>
          have := lt_of_lt_of_le (List.nil_lt_cons x (p ++ a)) h₁
          exact absurd this (lt_irrefl _)
      | cons z y =>
          rw [List.cons_append] at h₁ h₂
          have hzx : ¬ z < x := fun h => absurd (cons_lt_cons.mpr (Or.inl h)) (not_lt.mpr h₁)
          have hxz : ¬ x < z := fun h => absurd (cons_lt_cons.mpr (Or.inl h)) (not_lt.mpr h₂)
          have hz : x = z := UInt8.le_antisymm (UInt8.not_lt.mp hzx) (UInt8.not_lt.mp hxz)
          subst hz
          refine (List.prefix_cons_inj x).mpr (ih ?_ ?_)
          · exact not_lt.mp fun h => absurd (cons_lt_cons.mpr (Or.inr ⟨rfl, h⟩)) (not_lt.mpr h₁)
          · exact not_lt.mp fun h => absurd (cons_lt_cons.mpr (Or.inr ⟨rfl, h⟩)) (not_lt.mpr h₂)

theorem byte_between_succ_iff {x y : UInt8} (hx : x ≠ 0xff) : x ≤ y ∧ y < x + 1 ↔ x = y := by
  have hlt : x.toNat + 1 < 256 := by
    have h₁ := x.toNat_lt
    have h₂ : x.toNat ≠ 255 := fun h => hx (UInt8.toNat.inj h)
    omega
  have hsucc : (x + 1).toNat = x.toNat + 1 := by
    rw [UInt8.toNat_add]
    exact Nat.mod_eq_of_lt hlt
  rw [UInt8.le_iff_toNat_le, UInt8.lt_iff_toNat_lt, hsucc]
  constructor
  · intro h
    apply UInt8.toNat.inj
    omega
  · intro h
    subst h
    omega

/-- The strings that start with `p ++ [x]` are those from it up to `p` with the bumped byte. -/
theorem between_bump_iff {p k : Bytes} {x : UInt8} (hx : x ≠ 0xff) :
    p ++ [x] <+: k ↔ p ++ [x] ≤ k ∧ k < p ++ [x + 1] := by
  induction p generalizing k with
  | nil =>
      cases k with
      | nil => simp
      | cons y k =>
          have hle : [x] ≤ y :: k ↔ x ≤ y := by
            rw [← not_lt, cons_lt_cons, ← UInt8.not_lt]
            simp
          have hlt : y :: k < [x + 1] ↔ y < x + 1 := by
            rw [cons_lt_cons]
            simp
          rw [List.nil_append, List.nil_append, hle, hlt, byte_between_succ_iff hx]
          simp [List.cons_prefix_cons]
  | cons z p ih =>
      cases k with
      | nil => simp
      | cons y k =>
          rw [List.cons_append, List.cons_append, List.cons_prefix_cons, ih, ← not_lt, ← not_lt,
            cons_lt_cons, cons_lt_cons]
          constructor
          · rintro ⟨rfl, h⟩
            simp [h]
          · rintro ⟨h₁, h₂⟩
            rcases h₂ with h₂ | ⟨rfl, h₂⟩
            · exact absurd (Or.inl h₂) h₁
            · refine ⟨rfl, fun h => h₁ (Or.inr ⟨rfl, h⟩), h₂⟩

theorem le_of_isPrefix {p k : Bytes} (h : p <+: k) : p ≤ k := by
  obtain ⟨t, rfl⟩ := h
  rw [← not_lt]
  intro hlt
  have : t < [] := by
    rw [← append_lt_append_left_iff p, List.append_nil]
    exact hlt
  simp at this

/-- Behind `p` nothing is above the largest byte but what starts with it. -/
theorem prefix_max_iff {p k : Bytes} (h : p <+: k) : p ++ [0xff] ≤ k ↔ p ++ [0xff] <+: k := by
  obtain ⟨t, rfl⟩ := h
  rw [List.prefix_append_right_inj, ← not_lt, append_lt_append_left_iff]
  cases t with
  | nil => simp
  | cons y t =>
      have hy : ¬ y < 0xff ↔ 0xff = y := by
        rw [UInt8.lt_iff_toNat_lt]
        have hle := y.toNat_lt
        constructor
        · intro hge
          apply UInt8.toNat.inj
          have : (0xff : UInt8).toNat = 255 := rfl
          omega
        · rintro rfl
          exact lt_irrefl _
      rw [cons_lt_cons, List.cons_prefix_cons, ← hy]
      simp

/-! ### Big-endian words -/

/-- The eight bytes of a word, most significant first. -/
def beBytes (n : UInt64) : Bytes :=
  [7, 6, 5, 4, 3, 2, 1, 0].map fun i => UInt8.ofNat (n.toNat / 256 ^ i)

/-- The word whose big-endian bytes are given. -/
def ofBeBytes (b : Bytes) : UInt64 :=
  UInt64.ofNat (b.foldl (fun acc x => acc * 256 + x.toNat) 0)

@[simp] theorem length_beBytes (n : UInt64) : (beBytes n).length = 8 := rfl

/-- The number whose digits to base 256 follow `acc`. -/
def digits (acc : ℕ) (b : Bytes) : ℕ := b.foldl (fun acc x => acc * 256 + x.toNat) acc

@[simp] theorem digits_cons (acc : ℕ) (x : UInt8) (b : Bytes) :
    digits acc (x :: b) = digits (acc * 256 + x.toNat) b := rfl

/-- The lowest `k` digits of a number, put back after the rest of it. -/
theorem digits_div (n k : ℕ) :
    digits (n / 256 ^ k) ((List.range k).reverse.map fun i => UInt8.ofNat (n / 256 ^ i)) = n := by
  induction k with
  | zero => simp [digits]
  | succ k ih =>
      have hdigit : n / 256 ^ (k + 1) * 256 + (UInt8.ofNat (n / 256 ^ k)).toNat = n / 256 ^ k := by
        rw [UInt8.toNat_ofNat', pow_succ, ← Nat.div_div_eq_div_mul]
        exact Nat.div_add_mod' _ _
      rw [List.range_succ, List.reverse_append, List.reverse_singleton, List.singleton_append,
        List.map_cons, digits_cons, hdigit]
      exact ih

theorem digits_beBytes (n : UInt64) : digits 0 (beBytes n) = n.toNat := by
  have htop : n.toNat / 256 ^ 8 = 0 := Nat.div_eq_of_lt n.toNat_lt
  have h := digits_div n.toNat 8
  rw [htop] at h
  exact h

@[simp] theorem ofBeBytes_beBytes (n : UInt64) : ofBeBytes (beBytes n) = n := by
  show UInt64.ofNat (digits 0 (beBytes n)) = n
  rw [digits_beBytes, UInt64.ofNat_toNat]

theorem beBytes_injective : Function.Injective beBytes :=
  Function.LeftInverse.injective ofBeBytes_beBytes

theorem le_digits (acc : ℕ) (b : Bytes) : acc * 256 ^ b.length ≤ digits acc b := by
  induction b generalizing acc with
  | nil => simp [digits]
  | cons x b ih =>
      have h := ih (acc * 256 + x.toNat)
      rw [digits_cons, List.length_cons, pow_succ]
      have hx : acc * (256 ^ b.length * 256) ≤ (acc * 256 + x.toNat) * 256 ^ b.length := by
        nlinarith [Nat.zero_le (x.toNat * 256 ^ b.length)]
      omega

theorem digits_lt (acc : ℕ) (b : Bytes) : digits acc b < (acc + 1) * 256 ^ b.length := by
  induction b generalizing acc with
  | nil => simp [digits]
  | cons x b ih =>
      have h := ih (acc * 256 + x.toNat)
      rw [digits_cons, List.length_cons, pow_succ]
      have hx : acc * 256 + x.toNat + 1 ≤ (acc + 1) * 256 := by
        have := x.toNat_lt
        omega
      have hmul := Nat.mul_le_mul_right (256 ^ b.length) hx
      have hassoc : (acc + 1) * 256 * 256 ^ b.length = (acc + 1) * (256 ^ b.length * 256) := by ring
      omega

/-- Strings of one length are ordered as the numbers they spell. -/
theorem digits_lt_of_lt {a b : Bytes} (hlen : a.length = b.length) (h : a < b) (acc : ℕ) :
    digits acc a < digits acc b := by
  induction a generalizing b acc with
  | nil =>
      rw [List.length_eq_zero_iff.mp hlen.symm] at h
      exact absurd h (lt_irrefl _)
  | cons x a ih =>
      cases b with
      | nil => simp at hlen
      | cons y b =>
          have hlen' : a.length = b.length := by simpa using hlen
          rw [digits_cons, digits_cons]
          rcases cons_lt_cons.mp h with hxy | ⟨rfl, hab⟩
          · have hlow := digits_lt (acc * 256 + x.toNat) a
            have hhigh := le_digits (acc * 256 + y.toNat) b
            have hstep : acc * 256 + x.toNat + 1 ≤ acc * 256 + y.toNat := by
              have := UInt8.lt_iff_toNat_lt.mp hxy
              omega
            have hmul := Nat.mul_le_mul_right (256 ^ a.length) hstep
            rw [← hlen'] at hhigh
            omega
          · exact ih hlen' hab _

/-- Big-endian bytes are ordered as the words are. -/
@[simp] theorem beBytes_lt_beBytes (m n : UInt64) : beBytes m < beBytes n ↔ m < n := by
  have hmono : ∀ a b : UInt64, beBytes a < beBytes b → a < b := by
    intro a b h
    have hlt := digits_lt_of_lt (by rw [length_beBytes, length_beBytes]) h 0
    rw [digits_beBytes, digits_beBytes] at hlt
    exact UInt64.lt_iff_toNat_lt.mpr hlt
  refine ⟨hmono m n, ?_⟩
  intro h
  by_contra hnot
  rcases lt_or_eq_of_le (not_lt.mp hnot) with hlt | heq
  · exact lt_asymm h (hmono n m hlt)
  · exact absurd (beBytes_injective heq) (ne_of_gt h)

end ByteOrder
