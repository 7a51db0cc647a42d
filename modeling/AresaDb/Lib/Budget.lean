import Mathlib

/-! # Budgets

Items are taken off the front of a list as long as their costs fit a budget; the first that does not
fit ends it, even if later ones would fit. -/

namespace Budget

variable {α : Type} (cost : α → ℕ) (budget : ℕ)

/-- The items that are taken when some of the budget is used. -/
def fill (used : ℕ) : List α → List α
  | [] => []
  | a :: l => if budget < used + cost a then [] else a :: fill (used + cost a) l

/-- The cost of a list. -/
def total (l : List α) : ℕ := (l.map cost).sum

variable {cost budget} {used : ℕ} {l p : List α} {a : α}

theorem total_cons (a : α) (l : List α) : total cost (a :: l) = cost a + total cost l := rfl

theorem fill_full (h : budget < used + cost a) : fill cost budget used (a :: l) = [] := if_pos h

theorem fill_cons (h : ¬budget < used + cost a) :
    fill cost budget used (a :: l) = a :: fill cost budget (used + cost a) l := if_neg h

theorem fill_prefix : fill cost budget used l <+: l := by
  induction l generalizing used with
  | nil => exact List.prefix_rfl
  | cons a l ih =>
      unfold fill
      split_ifs
      · exact List.nil_prefix
      · exact List.cons_prefix_cons.mpr ⟨rfl, ih⟩

theorem total_fill (h : used ≤ budget) : used + total cost (fill cost budget used l) ≤ budget := by
  induction l generalizing used with
  | nil => exact h
  | cons a l ih =>
      unfold fill
      split_ifs with hfull
      · exact h
      · rw [total_cons, ← Nat.add_assoc]
        exact ih (Nat.le_of_not_lt hfull)

/-- The next item would not fit. -/
theorem full_of_next (h : fill cost budget used l ++ [a] <+: l) :
    budget < used + total cost (fill cost budget used l) + cost a := by
  induction l generalizing used with
  | nil => simp at h
  | cons b l ih =>
      unfold fill at h ⊢
      split_ifs at h ⊢ with hfull
      · obtain ⟨rfl, -⟩ := List.cons_prefix_cons.mp h
        exact hfull
      · rw [total_cons, ← Nat.add_assoc]
        exact ih (List.cons_prefix_cons.mp h).2

end Budget
