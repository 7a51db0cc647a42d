import Mathlib

/-! # Tilings of a linear order by half-open spans

A `Span` is a half-open interval `[lo, hi)` whose upper end may be absent.  A tiling assigns a
span to some of its indices; it is `Valid` when its spans are proper and no point lies in two of
them, so that every point has at most one owner.  Three operations change a tiling:

* `place` puts a span under an index;
* `split` cuts the span of an index at an inner point and gives the upper part to a new index;
* `merge` extends the span of an index over the adjacent span of a second one, which goes away.

Splitting and merging keep the tiling valid and change neither the covered points nor any owner
outside the upper part, respectively the absorbed span (`owns_split`, `owns_merge`).

Order is the only structure used, so indices and points are arbitrary types. -/

/-- The half-open interval `[lo, hi)`; `hi = ⊤` is no upper bound. -/
@[ext] structure Span (α : Type) where
  lo : α
  hi : WithTop α

namespace Span

variable {α : Type} [LinearOrder α]

instance : Membership α (Span α) := ⟨fun s x => s.lo ≤ x ∧ (x : WithTop α) < s.hi⟩

theorem mem_iff {s : Span α} {x : α} : x ∈ s ↔ s.lo ≤ x ∧ (x : WithTop α) < s.hi := Iff.rfl

/-- The span holds at least one point. -/
def Proper (s : Span α) : Prop := (s.lo : WithTop α) < s.hi

theorem Proper.lo_mem {s : Span α} (h : s.Proper) : s.lo ∈ s := ⟨le_rfl, h⟩

/-- The part of a span below `k`. -/
def below (s : Span α) (k : α) : Span α := ⟨s.lo, k⟩

/-- The part of a span from `k` on. -/
def above (s : Span α) (k : α) : Span α := ⟨k, s.hi⟩

/-- From the start of one span to the end of another. -/
def join (s t : Span α) : Span α := ⟨s.lo, t.hi⟩

theorem mem_below {s : Span α} {k x : α} (h : (k : WithTop α) < s.hi) :
    x ∈ s.below k ↔ x ∈ s ∧ x < k := by
  simp only [mem_iff, below, WithTop.coe_lt_coe]
  constructor
  · rintro ⟨h₁, h₂⟩
    exact ⟨⟨h₁, lt_trans (WithTop.coe_lt_coe.mpr h₂) h⟩, h₂⟩
  · rintro ⟨⟨h₁, _⟩, h₂⟩
    exact ⟨h₁, h₂⟩

theorem mem_above {s : Span α} {k x : α} (h : s.lo < k) : x ∈ s.above k ↔ x ∈ s ∧ k ≤ x := by
  simp only [mem_iff, above]
  constructor
  · rintro ⟨h₁, h₂⟩
    exact ⟨⟨le_of_lt (lt_of_lt_of_le h h₁), h₂⟩, h₁⟩
  · rintro ⟨⟨_, h₂⟩, h₁⟩
    exact ⟨h₁, h₂⟩

theorem mem_join {s t : Span α} (hs : s.Proper) (ht : t.Proper) (h : s.hi = t.lo) {x : α} :
    x ∈ s.join t ↔ x ∈ s ∨ x ∈ t := by
  simp only [mem_iff, join]
  rw [h, WithTop.coe_lt_coe]
  have hlo : s.lo < t.lo := by
    rw [← WithTop.coe_lt_coe, ← h]
    exact hs
  constructor
  · rintro ⟨h₁, h₂⟩
    rcases lt_or_ge x t.lo with hx | hx
    · exact Or.inl ⟨h₁, hx⟩
    · exact Or.inr ⟨hx, h₂⟩
  · rintro (⟨h₁, h₂⟩ | ⟨h₁, h₂⟩)
    · exact ⟨h₁, lt_trans (WithTop.coe_lt_coe.mpr h₂) ht⟩
    · exact ⟨le_of_lt (lt_of_lt_of_le hlo h₁), h₂⟩

theorem proper_below {s : Span α} {k : α} (h : s.lo < k) : (s.below k).Proper :=
  WithTop.coe_lt_coe.mpr h

theorem proper_above {s : Span α} {k : α} (h : (k : WithTop α) < s.hi) : (s.above k).Proper := h

theorem proper_join {s t : Span α} (hs : s.Proper) (ht : t.Proper) (h : s.hi = t.lo) :
    (s.join t).Proper := by
  have hlo : (s.lo : WithTop α) < t.lo := by
    rw [← h]
    exact hs
  exact lt_trans hlo ht

end Span

/-- A span for some of the indices. -/
abbrev Tiling (ι α : Type) := ι → Option (Span α)

namespace Tiling

variable {ι α : Type} [LinearOrder α]

/-- The span of index `i` holds the point `x`. -/
def Owns (T : Tiling ι α) (i : ι) (x : α) : Prop := ∃ s, T i = some s ∧ x ∈ s

/-- Some span holds the point `x`. -/
def Covered (T : Tiling ι α) (x : α) : Prop := ∃ i, T.Owns i x

/-- Every span is proper and no point has two owners. -/
structure Valid (T : Tiling ι α) : Prop where
  proper : ∀ i s, T i = some s → s.Proper
  unique : ∀ i j x, T.Owns i x → T.Owns j x → i = j

theorem valid_empty : Valid (fun _ => none : Tiling ι α) :=
  ⟨by simp, by rintro i j x ⟨s, hs, _⟩; simp at hs⟩

/-- In a valid tiling the starts of distinct indices differ. -/
theorem Valid.lo_injective {T : Tiling ι α} (h : T.Valid) {i j : ι} {s t : Span α}
    (hi : T i = some s) (hj : T j = some t) (hlo : s.lo = t.lo) : i = j :=
  h.unique i j s.lo ⟨s, hi, (h.proper i s hi).lo_mem⟩
    ⟨t, hj, hlo ▸ (h.proper j t hj).lo_mem⟩

theorem Valid.existsUnique {T : Tiling ι α} (h : T.Valid) {x : α} (hx : T.Covered x) :
    ∃! i, T.Owns i x := by
  obtain ⟨i, hi⟩ := hx
  exact ⟨i, hi, fun j hj => h.unique j i x hj hi⟩

variable [DecidableEq ι]

/-- Put the span `s` under the index `i`. -/
def place (T : Tiling ι α) (i : ι) (s : Span α) : Tiling ι α := Function.update T i (some s)

/-- Take the span of `i` away. -/
def remove (T : Tiling ι α) (i : ι) : Tiling ι α := Function.update T i none

/-- Cut the span `s` of `i` at `k` and give the upper part to `j`. -/
def split (T : Tiling ι α) (i j : ι) (s : Span α) (k : α) : Tiling ι α :=
  (T.place i (s.below k)).place j (s.above k)

/-- Extend the span `s` of `i` over the span `t` of `j`, which goes away. -/
def merge (T : Tiling ι α) (i j : ι) (s t : Span α) : Tiling ι α :=
  (T.remove j).place i (s.join t)

theorem owns_place {T : Tiling ι α} {i m : ι} {s : Span α} {x : α} :
    (T.place i s).Owns m x ↔ if m = i then x ∈ s else T.Owns m x := by
  unfold Owns place
  by_cases hm : m = i
  · subst hm
    simp
  · simp [hm]

theorem owns_remove {T : Tiling ι α} {i m : ι} {x : α} :
    (T.remove i).Owns m x ↔ m ≠ i ∧ T.Owns m x := by
  unfold Owns remove
  by_cases hm : m = i
  · subst hm
    simp
  · simp [hm]

/-- A proper span that meets no other one may be placed. -/
theorem Valid.place {T : Tiling ι α} (h : T.Valid) {i : ι} {s : Span α} (hs : s.Proper)
    (hfree : ∀ j x, x ∈ s → T.Owns j x → j = i) : (T.place i s).Valid := by
  constructor
  · intro m t hm
    by_cases he : m = i
    · subst he
      simp only [Tiling.place, Function.update_self, Option.some.injEq] at hm
      exact hm ▸ hs
    · simp only [Tiling.place, Function.update_of_ne he] at hm
      exact h.proper m t hm
  · intro m n x hm hn
    rw [owns_place] at hm hn
    split_ifs at hm hn with h₁ h₂ h₂
    · rw [h₁, h₂]
    · rw [h₁, hfree n x hm hn]
    · rw [h₂, hfree m x hn hm]
    · exact h.unique m n x hm hn

theorem Valid.remove {T : Tiling ι α} (h : T.Valid) (i : ι) : (T.remove i).Valid := by
  constructor
  · intro m t hm
    by_cases he : m = i
    · simp [Tiling.remove, he] at hm
    · simp only [Tiling.remove, Function.update_of_ne he] at hm
      exact h.proper m t hm
  · intro m n x hm hn
    exact h.unique m n x (owns_remove.mp hm).2 (owns_remove.mp hn).2

/-! ### Splitting -/

section split
variable {T : Tiling ι α} {i j : ι} {s : Span α} {k : α}

/-- Who owns what after a split, whatever `j` owned before. -/
theorem owns_split (hi : T i = some s) (hlo : s.lo < k) (hhi : (k : WithTop α) < s.hi) {m : ι}
    {x : α} :
    (T.split i j s k).Owns m x ↔
      if m = j then T.Owns i x ∧ k ≤ x else T.Owns m x ∧ (m = i → x < k) := by
  have hown : T.Owns i x ↔ x ∈ s := by simp [Owns, hi]
  unfold split
  rw [owns_place, owns_place, Span.mem_above hlo, Span.mem_below hhi]
  by_cases hmj : m = j
  · simp [hmj, hown]
  · by_cases hmi : m = i
    · have hij : i ≠ j := fun he => hmj (hmi.trans he)
      simp [hmi, hij, hown]
    · simp [hmj, hmi]

theorem Valid.split (h : T.Valid) (hi : T i = some s) (hlo : s.lo < k)
    (hhi : (k : WithTop α) < s.hi) : (T.split i j s k).Valid := by
  constructor
  · intro m t hm
    by_cases hmj : m = j
    · subst hmj
      simp only [Tiling.split, Tiling.place, Function.update_self, Option.some.injEq] at hm
      exact hm ▸ Span.proper_above hhi
    · by_cases hmi : m = i
      · subst hmi
        simp only [Tiling.split, Tiling.place, Function.update_of_ne hmj, Function.update_self,
          Option.some.injEq] at hm
        exact hm ▸ Span.proper_below hlo
      · simp only [Tiling.split, Tiling.place, Function.update_of_ne hmj,
          Function.update_of_ne hmi] at hm
        exact h.proper m t hm
  · intro m n x hm hn
    rw [owns_split hi hlo hhi] at hm hn
    split_ifs at hm hn with h₁ h₂ h₂
    · rw [h₁, h₂]
    · have he := h.unique n i x hn.1 hm.1
      exact absurd hm.2 (not_le.mpr (hn.2 he))
    · have he := h.unique m i x hm.1 hn.1
      exact absurd hn.2 (not_le.mpr (hm.2 he))
    · exact h.unique m n x hm.1 hn.1

/-- A split into a fresh index keeps the covered points. -/
theorem covered_split (hi : T i = some s) (hj : T j = none) (hlo : s.lo < k)
    (hhi : (k : WithTop α) < s.hi) {x : α} : (T.split i j s k).Covered x ↔ T.Covered x := by
  constructor
  · rintro ⟨m, hm⟩
    rw [owns_split hi hlo hhi] at hm
    split_ifs at hm with h₁
    · exact ⟨i, hm.1⟩
    · exact ⟨m, hm.1⟩
  · rintro ⟨m, hm⟩
    have hmj : m ≠ j := by
      rintro rfl
      obtain ⟨t, ht, _⟩ := hm
      simp [hj] at ht
    by_cases hx : m = i ∧ k ≤ x
    · refine ⟨j, (owns_split hi hlo hhi).mpr ?_⟩
      rw [if_pos rfl]
      exact ⟨hx.1 ▸ hm, hx.2⟩
    · refine ⟨m, (owns_split hi hlo hhi).mpr ?_⟩
      rw [if_neg hmj]
      exact ⟨hm, fun he => not_le.mp fun hk => hx ⟨he, hk⟩⟩

end split

/-! ### Merging -/

section merge
variable {T : Tiling ι α} {i j : ι} {s t : Span α}

/-- Who owns what after a merge of adjacent spans. -/
theorem owns_merge (h : T.Valid) (hi : T i = some s) (hj : T j = some t) (hadj : s.hi = t.lo)
    {m : ι} {x : α} :
    (T.merge i j s t).Owns m x ↔ if m = i then T.Owns i x ∨ T.Owns j x else m ≠ j ∧ T.Owns m x := by
  have hiown : T.Owns i x ↔ x ∈ s := by simp [Owns, hi]
  have hjown : T.Owns j x ↔ x ∈ t := by simp [Owns, hj]
  unfold merge
  rw [owns_place, owns_remove, Span.mem_join (h.proper i s hi) (h.proper j t hj) hadj, hiown, hjown]

theorem Valid.merge (h : T.Valid) (hi : T i = some s) (hj : T j = some t) (hadj : s.hi = t.lo) :
    (T.merge i j s t).Valid := by
  refine (h.remove j).place (Span.proper_join (h.proper i s hi) (h.proper j t hj) hadj) ?_
  intro m x hx hm
  obtain ⟨hmj, hm⟩ := owns_remove.mp hm
  rcases (Span.mem_join (h.proper i s hi) (h.proper j t hj) hadj).mp hx with hx | hx
  · exact h.unique m i x hm ⟨s, hi, hx⟩
  · exact absurd (h.unique m j x hm ⟨t, hj, hx⟩) hmj

/-- A merge keeps the covered points. -/
theorem covered_merge (h : T.Valid) (hi : T i = some s) (hj : T j = some t)
    (hadj : s.hi = t.lo) {x : α} : (T.merge i j s t).Covered x ↔ T.Covered x := by
  constructor
  · rintro ⟨m, hm⟩
    rw [owns_merge h hi hj hadj] at hm
    split_ifs at hm with h₁
    · rcases hm with hm | hm
      · exact ⟨i, hm⟩
      · exact ⟨j, hm⟩
    · exact ⟨m, hm.2⟩
  · rintro ⟨m, hm⟩
    by_cases hmij : m = i ∨ m = j
    · refine ⟨i, (owns_merge h hi hj hadj).mpr ?_⟩
      rw [if_pos rfl]
      rcases hmij with rfl | rfl
      · exact Or.inl hm
      · exact Or.inr hm
    · refine ⟨m, (owns_merge h hi hj hadj).mpr ?_⟩
      rw [if_neg fun he => hmij (Or.inl he)]
      exact ⟨fun he => hmij (Or.inr he), hm⟩

end merge

end Tiling
