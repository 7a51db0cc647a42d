import AresaDb.Lib.OrdMap

/-! # Keyed indexes of a set

`IsKeyed m key S` says that the map `m` is the index of the set `S` under `key`: every member stands
under its own key, and nothing else stands anywhere.  A member whose key is free is added and a
member is taken out, and the map follows.  Two indexes of one set, under two keys, mirror each other
(`IsKeyed.mirror`). -/

namespace OrdMap

variable {κ μ α : Type} [LinearOrder κ] [LinearOrder μ]

local instance : Std.TransCmp (compare : κ → κ → Ordering) := inferInstance

/-- `m` holds the members of `S`, each under its key, and nothing else. -/
def IsKeyed (m : OrdMap κ α) (key : α → κ) (S : Set α) : Prop :=
  ∀ (k : κ) (x : α), m[k]? = some x ↔ x ∈ S ∧ key x = k

theorem isKeyed_empty (key : α → κ) : IsKeyed (∅ : OrdMap κ α) key ∅ := by
  intro k x
  simp

variable {m : OrdMap κ α} {key : α → κ} {S : Set α}

theorem IsKeyed.get_key (h : IsKeyed m key S) {x : α} (hx : x ∈ S) : m[key x]? = some x :=
  (h (key x) x).mpr ⟨hx, rfl⟩

/-- Members with one key are one. -/
theorem IsKeyed.key_injOn (h : IsKeyed m key S) : Set.InjOn key S := by
  intro x hx y hy hxy
  have hget := h.get_key hx
  rw [hxy, h.get_key hy] at hget
  exact (Option.some.inj hget).symm

theorem IsKeyed.insert (h : IsKeyed m key S) {x : α} (hx : m[key x]? = none) :
    IsKeyed (m.insert (key x) x) key (insert x S) := by
  intro k y
  rw [get_insert, Set.mem_insert_iff]
  by_cases hk : key x = k
  · subst hk
    rw [if_pos rfl, Option.some.injEq]
    constructor
    · rintro rfl
      exact ⟨.inl rfl, rfl⟩
    · rintro ⟨rfl | hy, hkey⟩
      · rfl
      · -- The key was free.
        rw [← hkey, h.get_key hy] at hx
        cases hx
  · rw [if_neg hk, h]
    constructor
    · exact fun hy => ⟨.inr hy.1, hy.2⟩
    · rintro ⟨rfl | hy, hkey⟩
      · exact absurd hkey hk
      · exact ⟨hy, hkey⟩

theorem IsKeyed.erase (h : IsKeyed m key S) {x : α} (hx : x ∈ S) :
    IsKeyed (m.erase (key x)) key (S \ {x}) := by
  intro k y
  rw [get_erase, Set.mem_sdiff, Set.mem_singleton_iff]
  split_ifs with hk
  · subst hk
    refine iff_of_false (by simp) ?_
    rintro ⟨⟨hy, hne⟩, hkey⟩
    exact hne (h.key_injOn hy hx hkey)
  · rw [h]
    constructor
    · rintro ⟨hy, hkey⟩
      refine ⟨⟨hy, ?_⟩, hkey⟩
      rintro rfl
      exact hk hkey
    · exact fun hy => ⟨hy.1.1, hy.2⟩

theorem IsKeyed.congr (h : IsKeyed m key S) {T : Set α} (hT : ∀ x, x ∈ S ↔ x ∈ T) :
    IsKeyed m key T := by
  intro k x
  rw [h, hT]

theorem IsKeyed.mem_values (h : IsKeyed m key S) (x : α) : x ∈ m.values ↔ x ∈ S := by
  rw [OrdMap.mem_values]
  constructor
  · rintro ⟨k, hk⟩
    exact ((h k x).mp hk).1
  · exact fun hx => ⟨key x, h.get_key hx⟩

/-- What one index of a set holds, the other holds too. -/
theorem IsKeyed.mirror (h : IsKeyed m key S) {n : OrdMap μ α} {key' : α → μ}
    (h' : IsKeyed n key' S) (k : μ) (x : α) :
    n[k]? = some x ↔ key' x = k ∧ m[key x]? = some x := by
  rw [h', h, and_comm]
  simp

end OrdMap
