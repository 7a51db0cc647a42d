import AresaDb.Lib.ByteOrder

/-! # Little-endian numbers

The bytes of a number, least significant first, in a field of a fixed width.  What does not fit is
cut off: reading a field gives the number modulo `256 ^ width` (`ofLeBytes_leBytes`).  In a row of
fields of eight bytes, each is found at eight times its place (`getWord_putWords`). -/

namespace LittleEndian

open ByteOrder

def leBytes : ℕ → ℕ → Bytes
  | 0, _ => []
  | width + 1, n => UInt8.ofNat n :: leBytes width (n / 256)

def ofLeBytes : Bytes → ℕ
  | [] => 0
  | x :: b => x.toNat + 256 * ofLeBytes b

@[simp] theorem length_leBytes (width n : ℕ) : (leBytes width n).length = width := by
  induction width generalizing n with
  | zero => rfl
  | succ width ih => rw [leBytes, List.length_cons, ih]

theorem ofLeBytes_leBytes (width n : ℕ) : ofLeBytes (leBytes width n) = n % 256 ^ width := by
  induction width generalizing n with
  | zero => rw [leBytes, ofLeBytes, pow_zero, Nat.mod_one]
  | succ width ih =>
      have hdigit : (UInt8.ofNat n).toNat = n % 256 := UInt8.toNat_ofNat'
      rw [leBytes, ofLeBytes, ih, hdigit, pow_succ', Nat.mod_mul]

theorem ofLeBytes_word (w : UInt64) : UInt64.ofNat (ofLeBytes (leBytes 8 w.toNat)) = w := by
  have hlt : w.toNat < 256 ^ 8 := w.toNat_lt
  rw [ofLeBytes_leBytes, Nat.mod_eq_of_lt hlt, UInt64.ofNat_toNat]

/-- The words one after the other. -/
def putWords (ws : List UInt64) : Bytes := ws.flatMap fun w => leBytes 8 w.toNat

/-- The word at a place. -/
def getWord (b : Bytes) (i : ℕ) : UInt64 := UInt64.ofNat (ofLeBytes ((b.drop (i * 8)).take 8))

@[simp] theorem length_putWords (ws : List UInt64) : (putWords ws).length = ws.length * 8 := by
  induction ws with
  | nil => rfl
  | cons w ws ih =>
      rw [putWords, List.flatMap_cons, List.length_append, length_leBytes, List.length_cons]
      change 8 + (putWords ws).length = _
      omega

theorem getWord_putWords {ws : List UInt64} {i : ℕ} (hi : i < ws.length) :
    getWord (putWords ws) i = ws[i] := by
  induction ws generalizing i with
  | nil => exact absurd hi (Nat.not_lt_zero i)
  | cons w ws ih =>
      have hcons : putWords (w :: ws) = leBytes 8 w.toNat ++ putWords ws := List.flatMap_cons
      cases i with
      | zero =>
          have hfirst : ((leBytes 8 w.toNat ++ putWords ws).drop (0 * 8)).take 8 =
              leBytes 8 w.toNat :=
            List.take_left' (length_leBytes 8 _)
          rw [getWord, hcons, hfirst, ofLeBytes_word]
          rfl
      | succ i =>
          have hplace : (i + 1) * 8 = (leBytes 8 w.toNat).length + i * 8 := by
            rw [length_leBytes]
            omega
          rw [getWord, hcons, hplace, List.drop_length_add_append]
          exact ih (Nat.lt_of_succ_lt_succ hi)

/-- The first words are read back. -/
theorem getWords_putWords {ws : List UInt64} {n : ℕ} (hn : n ≤ ws.length) :
    ((List.range n).map fun i => getWord (putWords ws) i) = ws.take n := by
  refine List.ext_getElem (by simp [hn]) fun i hi hi' => ?_
  rw [List.length_map, List.length_range] at hi
  rw [List.getElem_map, List.getElem_range, List.getElem_take, getWord_putWords (hi.trans_le hn)]

end LittleEndian
