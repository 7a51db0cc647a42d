import Mathlib

/-! # Draining a source

A source hands out items one at a time until it has no more or fails.  Draining it collects the
items up to the first `none`, or gives the first error.  Each item handed out makes the source
smaller, so draining ends. -/

/-- A state that hands out items, and a size that each item takes something from. -/
structure Source (σ ε α : Type) where
  next : σ → Option (Except ε α) × σ
  size : σ → ℕ
  size_next : ∀ s a s', next s = (some (.ok a), s') → size s' < size s

namespace Source

variable {σ ε α : Type} (S : Source σ ε α)

/-- The items of a source after those collected already. -/
def drainFrom (s : σ) (results : List α) : Except ε (List α) :=
  match _h : S.next s with
  | (none, _) => .ok results
  | (some (.error e), _) => .error e
  | (some (.ok a), s') => drainFrom s' (results ++ [a])
termination_by S.size s
decreasing_by exact S.size_next s a s' _h

def drain (s : σ) : Except ε (List α) := S.drainFrom s []

variable {S} {s s' : σ}

theorem drainFrom_eq_map (results : List α) :
    S.drainFrom s results = (S.drain s).map (results ++ ·) := by
  induction hn : S.size s using Nat.strong_induction_on generalizing s results with
  | _ n ih =>
      rw [drain, drainFrom, drainFrom]
      split
      · simp [Except.map]
      · rfl
      · rename_i a s' h
        have hs' := hn ▸ S.size_next s a s' h
        rw [ih _ hs' _ rfl, ih _ hs' ([] ++ [a]) rfl]
        cases S.drain s' <;> simp [Except.map]

theorem drain_of_none (h : S.next s = (none, s')) : S.drain s = .ok [] := by
  rw [drain, drainFrom]
  split <;> simp_all

theorem drain_of_error {e : ε} (h : S.next s = (some (.error e), s')) : S.drain s = .error e := by
  rw [drain, drainFrom]
  split <;> simp_all

theorem drain_of_ok {a : α} (h : S.next s = (some (.ok a), s')) :
    S.drain s = (S.drain s').map (a :: ·) := by
  rw [drain, drainFrom]
  split
  · simp_all
  · simp_all
  · rename_i b s'' h'
    obtain ⟨hb, rfl⟩ := Prod.mk.inj (h'.symm.trans h)
    rw [drainFrom_eq_map]
    simp_all

end Source
