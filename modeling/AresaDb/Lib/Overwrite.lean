import Mathlib

/-! # Overwriting one cell

A list of operations as one cell sees it: each operation leaves the cell alone or overwrites it
with a value that does not depend on what the cell held.  `w o` is the value that `o` writes, if
it writes at all.  The cell after the list is then decided by the last overwrite alone
(`last`, `observe_foldl`), and operations that ran already may run again: a block of the history
repeated on a state that has seen it gives the state after the whole history (`last_replay`). -/

namespace Overwrite

variable {ω ν σ : Type} (w : ω → Option ν)

/-- The value of the last overwrite of a list. -/
def last : List ω → Option ν
  | [] => none
  | o :: os => (last os).or (w o)

@[simp] theorem last_nil : last w [] = none := rfl

@[simp] theorem last_cons (o : ω) (os : List ω) : last w (o :: os) = (last w os).or (w o) := rfl

@[simp] theorem last_append (as bs : List ω) :
    last w (as ++ bs) = (last w bs).or (last w as) := by
  induction as with
  | nil => simp
  | cons a as ih => rw [List.cons_append, last_cons, ih, last_cons, Option.or_assoc]

theorem last_eq_none_iff (os : List ω) : last w os = none ↔ ∀ o ∈ os, w o = none := by
  induction os with
  | nil => simp
  | cons o os ih => simp [ih, and_comm]

/-- The last overwrite, found at its place in the list. -/
theorem last_eq_some_iff (os : List ω) (x : ν) :
    last w os = some x ↔
      ∃ before o after, os = before ++ o :: after ∧ w o = some x ∧ ∀ a ∈ after, w a = none := by
  constructor
  · intro h
    induction os with
    | nil => simp at h
    | cons o os ih =>
        rw [last_cons] at h
        cases hos : last w os with
        | none =>
            rw [hos, Option.none_or] at h
            exact ⟨[], o, os, rfl, h, (last_eq_none_iff w os).mp hos⟩
        | some y =>
            rw [hos, Option.some_or] at h
            obtain ⟨before, p, after, rfl, hp, hafter⟩ := ih (hos.trans h)
            exact ⟨o :: before, p, after, rfl, hp, hafter⟩
  · rintro ⟨before, o, after, rfl, ho, hafter⟩
    rw [last_append, last_cons, (last_eq_none_iff w after).mpr hafter, ho]
    rfl

theorem mem_of_last_eq_some {os : List ω} {x : ν} (h : last w os = some x) :
    ∃ o ∈ os, w o = some x := by
  obtain ⟨before, o, after, rfl, ho, _⟩ := (last_eq_some_iff w os x).mp h
  exact ⟨o, by simp, ho⟩

/-- Operations seen through a translation. -/
theorem last_map {ρ : Type} (f : ρ → ω) (os : List ρ) :
    last w (os.map f) = last (fun o => w (f o)) os := by
  induction os with
  | nil => rfl
  | cons o os ih => rw [List.map_cons, last_cons, last_cons, ih]

/-- Values seen through a translation. -/
theorem last_map_value {μ : Type} (f : ν → μ) (os : List ω) :
    last (fun o => (w o).map f) os = (last w os).map f := by
  induction os with
  | nil => rfl
  | cons o os ih => rw [last_cons, last_cons, ih, Option.map_or]

/-- **What a cell holds after a run.**  When every step overwrites the observed cell or keeps it,
a run leaves the last overwrite there, and the first value when there is none. -/
theorem observe_foldl {step : σ → ω → σ} (observe : σ → ν)
    (h : ∀ s o, observe (step s o) = (w o).getD (observe s)) (os : List ω) (s : σ) :
    observe (os.foldl step s) = (last w os).getD (observe s) := by
  induction os generalizing s with
  | nil => rfl
  | cons o os ih =>
      rw [List.foldl_cons, ih, h, last_cons]
      cases last w os with
      | none => rfl
      | some y => rfl

/-- **Replay.**  Repeating the block `bs` after `as ++ bs`, and then going on with `cs`, ends
where the history in order ends. -/
theorem last_replay (as bs cs : List ω) (x : ν) :
    (last w (bs ++ cs)).getD ((last w (as ++ bs)).getD x) =
      (last w (as ++ bs ++ cs)).getD x := by
  simp only [last_append]
  cases last w cs with
  | some y => rfl
  | none =>
      cases last w bs with
      | some y => rfl
      | none => rfl

end Overwrite
