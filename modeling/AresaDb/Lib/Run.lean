import Mathlib

/-! # Runs of a deterministic machine

A machine is a total step function `step : σ → ι → σ`; a run is the left fold of `step` over a
list of inputs.  `Along step P s is` says that `P` holds at every step of the run of `is` from
`s`, of the state before the step and its input.  An invariant that each such step keeps holds
at the end of the run (`Along.invariant`), and a condition on steps may be weakened with the
help of an invariant (`Along.imp_of_invariant`). -/

namespace Run

variable {σ ι : Type} (step : σ → ι → σ)

/-- The state after a list of inputs. -/
def run (s : σ) (is : List ι) : σ := is.foldl step s

@[simp] theorem run_nil (s : σ) : run step s [] = s := rfl

@[simp] theorem run_cons (s : σ) (i : ι) (is : List ι) :
    run step s (i :: is) = run step (step s i) is := rfl

theorem run_append (s : σ) (is js : List ι) :
    run step s (is ++ js) = run step (run step s is) js := List.foldl_append

theorem run_concat (s : σ) (is : List ι) (i : ι) :
    run step s (is ++ [i]) = step (run step s is) i := by
  rw [run_append]
  rfl

/-- `P` holds of the state and the input at every step of a run. -/
def Along (P : σ → ι → Prop) : σ → List ι → Prop
  | _, [] => True
  | s, i :: is => P s i ∧ Along P (step s i) is

instance decidableAlong (P : σ → ι → Prop) [∀ s i, Decidable (P s i)] :
    ∀ s is, Decidable (Along step P s is)
  | _, [] => .isTrue trivial
  | s, i :: is =>
      have := decidableAlong P (step s i) is
      inferInstanceAs (Decidable (P s i ∧ Along step P (step s i) is))

variable {step} {P Q : σ → ι → Prop}

theorem along_append {s : σ} {is js : List ι} :
    Along step P s (is ++ js) ↔ Along step P s is ∧ Along step P (run step s is) js := by
  induction is generalizing s with
  | nil => simp [Along]
  | cons i is ih => simp only [List.cons_append, Along, ih, run_cons, and_assoc]

theorem along_concat {s : σ} {is : List ι} {i : ι} :
    Along step P s (is ++ [i]) ↔ Along step P s is ∧ P (run step s is) i := by
  rw [along_append]
  simp [Along]

theorem Along.and {s : σ} {is : List ι} (hp : Along step P s is) (hq : Along step Q s is) :
    Along step (fun s i => P s i ∧ Q s i) s is := by
  induction is generalizing s with
  | nil => trivial
  | cons i is ih => exact ⟨⟨hp.1, hq.1⟩, ih hp.2 hq.2⟩

theorem Along.upto {s : σ} {is js : List ι} (h : Along step P s is) (hp : js <+: is) :
    Along step P s js := by
  obtain ⟨ks, rfl⟩ := hp
  exact (along_append.mp h).1

/-- `P` along a run is `P` at each of its steps. -/
theorem along_iff {s : σ} {is : List ι} :
    Along step P s is ↔ ∀ before i after, is = before ++ i :: after → P (run step s before) i := by
  induction is generalizing s with
  | nil => simp [Along]
  | cons i is ih =>
      rw [Along, ih]
      constructor
      · rintro ⟨h, hrest⟩ before j after he
        cases before with
        | nil =>
            obtain ⟨rfl, _⟩ := List.cons.inj he
            exact h
        | cons b before =>
            obtain ⟨rfl, hrest'⟩ := List.cons.inj he
            exact hrest before j after hrest'
      · intro h
        exact ⟨h [] i is rfl, fun before j after he => h (i :: before) j after (by rw [he]; rfl)⟩

/-- What every step keeps holds at the end of the run. -/
theorem Along.invariant {Inv : σ → Prop} (hstep : ∀ s i, Inv s → P s i → Inv (step s i)) {s : σ}
    {is : List ι} (h : Along step P s is) (h₀ : Inv s) : Inv (run step s is) := by
  induction is generalizing s with
  | nil => exact h₀
  | cons i is ih => exact ih h.2 (hstep s i h₀ h.1)

theorem Along.imp (himp : ∀ s i, P s i → Q s i) {s : σ} {is : List ι} (h : Along step P s is) :
    Along step Q s is := by
  induction is generalizing s with
  | nil => trivial
  | cons i is ih => exact ⟨himp s i h.1, ih h.2⟩

theorem Along.imp_of_invariant {Inv : σ → Prop} (hstep : ∀ s i, Inv s → P s i → Inv (step s i))
    (himp : ∀ s i, Inv s → P s i → Q s i) {s : σ} {is : List ι} (h : Along step P s is)
    (h₀ : Inv s) : Along step Q s is := by
  induction is generalizing s with
  | nil => trivial
  | cons i is ih => exact ⟨himp s i h₀ h.1, ih h.2 (hstep s i h₀ h.1)⟩

/-- When `P` is exactly what a step needs to keep the invariant, a run is within it all the way just
when `P` holds along it. -/
theorem along_iff_of_step {Inv : σ → Prop} (hstep : ∀ s i, Inv s → (Inv (step s i) ↔ P s i)) {s : σ}
    {is : List ι} (h₀ : Inv s) : Along step P s is ↔ ∀ js, js <+: is → Inv (run step s js) := by
  constructor
  · intro h js hjs
    exact (h.upto hjs).invariant (fun s i hs => (hstep s i hs).mpr) h₀
  · intro h
    induction is generalizing s with
    | nil => trivial
    | cons i is ih =>
        have hnext : Inv (step s i) := h [i] (List.prefix_append [i] is)
        refine ⟨(hstep s i h₀).mp hnext, ih hnext fun js hjs => ?_⟩
        exact h (i :: js) (List.cons_prefix_cons.mpr ⟨rfl, hjs⟩)

/-- What every step keeps unconditionally holds at the end of every run. -/
theorem invariant {Inv : σ → Prop} (hstep : ∀ s i, Inv s → Inv (step s i)) {s : σ} (h₀ : Inv s)
    (is : List ι) : Inv (run step s is) := by
  induction is generalizing s with
  | nil => exact h₀
  | cons i is ih => exact ih (hstep s i h₀)

/-- What the steps add and never take away. -/
theorem mem_run_iff {π : Type} (mem : σ → π → Prop) (adds : ι → π → Prop)
    (hstep : ∀ s i p, mem (step s i) p ↔ mem s p ∨ adds i p) (s : σ) (is : List ι) (p : π) :
    mem (run step s is) p ↔ mem s p ∨ ∃ i ∈ is, adds i p := by
  induction is generalizing s with
  | nil => simp
  | cons i is ih => rw [run_cons, ih, hstep, List.exists_mem_cons_iff, or_assoc]

end Run
