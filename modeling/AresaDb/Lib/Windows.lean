import Mathlib

/-! # Windows over a list

Windows of a fixed width, one every `step` places from the beginning, until one reaches the end.
`count` is how many that takes.  Only the last of them reaches the end (`reaches_iff`), and windows
at least as wide as the steps leave nothing out (`exists_covering`). -/

namespace Windows

variable {len width step i j : ℕ}

/-- How many windows it takes to reach the end; of an empty list, none. -/
def count (len width step : ℕ) : ℕ := if len = 0 then 0 else (len - width) ⌈/⌉ step + 1

@[simp] theorem count_zero (width step : ℕ) : count 0 width step = 0 := rfl

theorem count_le_iff (hstep : 0 < step) :
    count len width step ≤ i + 1 ↔ len ≤ i * step + width := by
  have hceil : (len - width) ⌈/⌉ step ≤ i ↔ len - width ≤ step * i := ceilDiv_le_iff_le_mul hstep
  rw [Nat.mul_comm] at hceil
  unfold count
  split_ifs <;> omega

theorem reaches_iff (hstep : 0 < step) (hi : i < count len width step) :
    len ≤ i * step + width ↔ i + 1 = count len width step := by
  rw [← count_le_iff hstep]
  omega

theorem start_lt (hstep : 0 < step) (hle : step ≤ width) (hi : i < count len width step) :
    i * step < len := by
  cases i with
  | zero =>
      rw [Nat.zero_mul, Nat.pos_iff_ne_zero]
      rintro rfl
      exact Nat.not_lt_zero 0 hi
  | succ i =>
      have hnot := (count_le_iff hstep).not.mp (not_le.mpr hi)
      rw [Nat.succ_mul]
      omega

theorem exists_covering (hstep : 0 < step) (hle : step ≤ width) (hj : j < len) :
    ∃ i < count len width step, i * step ≤ j ∧ j < i * step + width := by
  -- It is the last window of the list cut off after the place.
  obtain ⟨i, hi⟩ : ∃ i, count (j + 1) width step = i + 1 := ⟨_, rfl⟩
  obtain ⟨n, hn⟩ : ∃ n, count len width step = n + 1 := ⟨_, if_neg (Nat.ne_zero_of_lt hj)⟩
  have hend : len ≤ n * step + width := (count_le_iff hstep).mp hn.le
  have hcount : count (j + 1) width step ≤ n + 1 := (count_le_iff hstep).mpr (by omega)
  have hstart : i * step < j + 1 := start_lt hstep hle (by omega)
  refine ⟨i, by omega, by omega, ?_⟩
  exact Nat.lt_of_succ_le ((count_le_iff hstep).mp hi.le)

end Windows
