import Mathlib

/-! # Three-valued logic

Truth values are `some true`, `some false` and `none`, the unknown, with Kleene's connectives: a
result is known as soon as the known operands decide it. -/

namespace Kleene

/-- False as soon as one operand is. -/
def and : Option Bool → Option Bool → Option Bool
  | some false, _ => some false
  | _, some false => some false
  | some true, some true => some true
  | _, _ => none

/-- True as soon as one operand is. -/
def or : Option Bool → Option Bool → Option Bool
  | some true, _ => some true
  | _, some true => some true
  | some false, some false => some false
  | _, _ => none

def not (p : Option Bool) : Option Bool := p.map fun b => !b

/-- The disjunction of a list. -/
def any (ps : List (Option Bool)) : Option Bool := ps.foldr or (some false)

@[simp] theorem and_eq_true (p q : Option Bool) :
    and p q = some true ↔ p = some true ∧ q = some true := by
  revert p q
  decide

@[simp] theorem or_eq_true (p q : Option Bool) :
    or p q = some true ↔ p = some true ∨ q = some true := by
  revert p q
  decide

@[simp] theorem not_eq_true (p : Option Bool) : not p = some true ↔ p = some false := by
  revert p
  decide

theorem any_eq_true (ps : List (Option Bool)) : any ps = some true ↔ some true ∈ ps := by
  unfold any
  induction ps with
  | nil => simp
  | cons p ps ih => rw [List.foldr_cons, or_eq_true, ih, List.mem_cons, eq_comm]

end Kleene
