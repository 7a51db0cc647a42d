import AresaDb.Lib.OrdMap

/-! # Successors around a ring

The entries of an ordered map on a ring: the successor of a key is the entry at or after it, or the
first one when there is none.  It is the entry with the least `turn`, which puts the keys from `k`
on before those below `k` (`successor_eq_some_iff`).  So a successor stays one when other entries go
(`successor_of_subset`). -/

namespace OrdMap

variable {κ α : Type} [LinearOrder κ]

/-- Of entries in order, the one at or after a key, else the first one. -/
def successor (entries : List (κ × α)) (k : κ) : Option (κ × α) :=
  (entries.find? fun e => k ≤ e.1).or entries.head?

/-- The keys from `k` on, then those below. -/
def turn (k s : κ) : Bool ×ₗ κ := toLex (decide (s < k), s)

theorem turn_le_iff {k s t : κ} : turn k s ≤ turn k t ↔
    (k ≤ s ∧ t < k) ∨ ((s < k ↔ t < k) ∧ s ≤ t) := by
  have hnot : ∀ x, k ≤ x ↔ ¬ x < k := fun x => not_lt.symm
  rw [turn, turn, Prod.Lex.toLex_le_toLex, Bool.lt_iff, hnot]
  simp only [decide_eq_false_iff_not, decide_eq_true_iff, decide_eq_decide]

theorem turn_injective (k : κ) : Function.Injective (turn k) := fun _ _ h =>
  congrArg (fun e => (ofLex e).2) h

theorem successor_eq_some_iff (m : OrdMap κ α) (k s : κ) (v : α) :
    successor m.toList k = some (s, v) ↔
      m[s]? = some v ∧ ∀ (t : κ) (w : α), m[t]? = some w → turn k s ≤ turn k t := by
  have hmin : ∀ (s : κ) (v : α), successor m.toList k = some (s, v) →
      m[s]? = some v ∧ ∀ (t : κ) (w : α), m[t]? = some w → turn k s ≤ turn k t := by
    intro s v h
    rw [successor, Option.or_eq_some_iff, ← List.head?_filter] at h
    obtain h | ⟨hnone, h⟩ := h
    · rw [head?_eq_some_iff_of_sorted ((toList_sorted m).filter _), List.mem_filter, mem_toList,
        decide_eq_true_iff] at h
      obtain ⟨⟨hs, hk⟩, hle⟩ := h
      refine ⟨hs, fun t w ht => turn_le_iff.mpr ?_⟩
      obtain hlt | hge := lt_or_ge t k
      · exact .inl ⟨hk, hlt⟩
      · refine .inr ⟨iff_of_false hk.not_gt hge.not_gt, hle (t, w) ?_⟩
        exact List.mem_filter.mpr ⟨(mem_toList _ _ _).mpr ht, decide_eq_true hge⟩
    · rw [head?_eq_some_iff_of_sorted (toList_sorted m), mem_toList] at h
      obtain ⟨hs, hle⟩ := h
      have hlow : ∀ (t : κ) (w : α), m[t]? = some w → t < k := by
        intro t w ht
        by_contra hge
        have hin : (t, w) ∈ m.toList.filter fun e => k ≤ e.1 :=
          List.mem_filter.mpr ⟨(mem_toList _ _ _).mpr ht, decide_eq_true (not_lt.mp hge)⟩
        rw [List.head?_eq_none_iff.mp hnone] at hin
        exact List.not_mem_nil hin
      refine ⟨hs, fun t w ht => turn_le_iff.mpr (.inr ⟨?_, hle (t, w) ?_⟩)⟩
      · exact iff_of_true (hlow s v hs) (hlow t w ht)
      · exact (mem_toList _ _ _).mpr ht
  refine ⟨hmin s v, fun ⟨hs, hle⟩ => ?_⟩
  cases h : successor m.toList k with
  | none =>
      rw [successor, Option.or_eq_none_iff, List.head?_eq_none_iff] at h
      have hin := (mem_toList m s v).mpr hs
      rw [h.2] at hin
      exact (List.not_mem_nil hin).elim
  | some e =>
      obtain ⟨s', v'⟩ := e
      obtain ⟨hs', hle'⟩ := hmin s' v' h
      obtain rfl := turn_injective k (le_antisymm (hle s' v' hs') (hle' s v hs))
      rw [Option.some.inj (hs.symm.trans hs')]

theorem isSome_successor {m : OrdMap κ α} {s : κ} {v : α} (h : m[s]? = some v) (k : κ) :
    (successor m.toList k).isSome := by
  rw [successor, Option.isSome_or, Bool.or_eq_true]
  refine .inr ?_
  rw [List.isSome_head?]
  exact List.ne_nil_of_mem ((mem_toList m s v).mpr h)

/-- A successor is one among fewer entries too. -/
theorem successor_of_subset {m n : OrdMap κ α} {k s : κ} {v : α}
    (hsub : ∀ (t : κ) (w : α), m[t]? = some w → n[t]? = some w)
    (h : successor n.toList k = some (s, v))
    (hs : m[s]? = some v) : successor m.toList k = some (s, v) := by
  rw [successor_eq_some_iff] at h ⊢
  exact ⟨hs, fun t w ht => h.2 t w (hsub t w ht)⟩

end OrdMap
