import AresaDb.Pd.CatalogIds

/-! # Overlap detection and key routing

`find_overlap` inspects two neighbours in the start-key index, and `find_range_for_key` one.  Both
are exact in every catalog that a run without counter overflow reaches: a span is found to overlap
exactly when some live range shares a key with it, and a key is routed to the live range that
contains it. -/

namespace AresaDb.Pd

open ByteOrder

namespace Catalog

variable {c : Catalog} {s e : Bytes}

/-- The range and the span `[s, e)` share a key. -/
def Shares (d : RangeDescriptor) (s e : Bytes) : Prop :=
  ∃ key, d.contains key = true ∧ s ≤ key ∧ (e = [] ∨ key < e)

theorem shares_iff {d : RangeDescriptor} :
    Shares d s e ↔ ∃ key, key ∈ d.span ∧ key ∈ (⟨s, RangeDescriptor.endBound e⟩ : Span Bytes) := by
  unfold Shares
  simp only [RangeDescriptor.contains_iff, Span.mem_iff, RangeDescriptor.lt_endBound_iff]

/-- What the successor half finds starts inside the span. -/
theorem Sound.shares_successor (h : c.Sound) {id : RangeId}
    (hsuc : c.successorOverlap s e = some id) : ∃ d, c.ranges[id]? = some d ∧ Shares d s e := by
  unfold successorOverlap at hsuc
  split at hsuc
  · rename_i start sucId hfirst
    split_ifs at hsuc with hend
    obtain rfl := Option.some.inj hsuc
    obtain ⟨hindex, hlt, -⟩ := (OrdMap.firstGT?_eq_some_iff _ _ _ _).mp hfirst
    obtain ⟨d, hd, rfl⟩ := (h.startExact start sucId).mp hindex
    rw [Bool.or_eq_true, List.isEmpty_iff, decide_eq_true_eq] at hend
    refine ⟨d, hd, d.startKey, ?_, le_of_lt hlt, hend⟩
    rw [RangeDescriptor.contains_iff]
    exact (h.routed.proper hd).lo_mem
  · cases hsuc

/-- **No false rejection**: the range that is found is live and shares a key with the span. -/
theorem Sound.shares_of_findOverlap (h : c.Sound) (hspan : e = [] ∨ s < e) {id : RangeId}
    (hfind : c.findOverlap s e = .ok (some id)) :
    ∃ d, c.ranges[id]? = some d ∧ Shares d s e := by
  unfold findOverlap at hfind
  split at hfind
  · rename_i start predId hlast
    obtain ⟨hindex, hle, -⟩ := (OrdMap.lastLE?_eq_some_iff _ _ _ _).mp hlast
    obtain ⟨d, hd, rfl⟩ := (h.startExact start predId).mp hindex
    rw [hd] at hfind
    dsimp only at hfind
    split_ifs at hfind with hcovers
    · obtain rfl := Option.some.inj (Except.ok.inj hfind)
      rw [Bool.or_eq_true, List.isEmpty_iff, decide_eq_true_eq] at hcovers
      refine ⟨d, hd, s, ?_, le_refl s, hspan⟩
      rw [RangeDescriptor.contains_iff, Span.mem_iff, RangeDescriptor.span_hi,
        RangeDescriptor.lt_endBound_iff]
      exact ⟨hle, hcovers⟩
    · exact h.shares_successor (Except.ok.inj hfind)
  · exact h.shares_successor (Except.ok.inj hfind)

/-- The search never meets an entry that names no range. -/
theorem Sound.findOverlap_isOk (h : c.Sound) (s e : Bytes) : ∃ r, c.findOverlap s e = .ok r := by
  rcases findOverlap_cases c s e with hok | ⟨-, key, id, hindex, hnone⟩
  · exact hok
  · obtain ⟨d, hd, -⟩ := (h.startExact key id).mp hindex
    rw [hnone] at hd
    cases hd

/-- **Overlap detection and key routing are exact** after every run without counter overflow. -/
theorem queries_exact (cmds : List PdCommand) (h : Run.Along step NoOverflow new cmds) :
    (∀ s e : Bytes, (e = [] ∨ s < e) → ∃ r, (after cmds).findOverlap s e = .ok r ∧
      (r.isSome ↔ ∃ (id : RangeId) (d : RangeDescriptor),
        (after cmds).ranges[id]? = some d ∧ Shares d s e) ∧
      ∀ id, r = some id → ∃ d, (after cmds).ranges[id]? = some d ∧ Shares d s e) ∧
    ∀ (key : Bytes) (d : RangeDescriptor), (after cmds).findRangeForKey key = some d ↔
      (∃ id : RangeId, (after cmds).ranges[id]? = some d) ∧ d.contains key = true := by
  have hsound := sound_after h
  refine ⟨fun s e hspan => ?_, fun key d => ?_⟩
  · obtain ⟨r, hr⟩ := hsound.findOverlap_isOk s e
    have hfound : ∀ id, r = some id → ∃ d, (after cmds).ranges[id]? = some d ∧ Shares d s e := by
      rintro id rfl
      exact hsound.shares_of_findOverlap hspan hr
    refine ⟨r, hr, ⟨fun hsome => ?_, ?_⟩, hfound⟩
    · obtain ⟨id, hid⟩ := Option.isSome_iff_exists.mp hsome
      exact ⟨id, hfound id hid⟩
    · rintro ⟨id, d, hd, hshares⟩
      by_contra hnone
      rw [Option.not_isSome_iff_eq_none.mp hnone] at hr
      obtain ⟨key, hkey, hin⟩ := shares_iff.mp hshares
      exact (hsound.routed.findOverlap_eq_none hr).1 key hin ⟨id, owns_iff.mpr ⟨d, hd, hkey⟩⟩
  · rw [hsound.routed.findRangeForKey_eq_some_iff, RangeDescriptor.contains_iff, exists_and_right]

/-- A catalog of three ranges, the middle one split off the left one. -/
theorem queries_exact_split :
    Run.Along step NoOverflow new
        [.createRange (.new 1 [] [109] []), .createRange (.new 2 [120] [] []),
          .splitRange 1 [100]] ∧
      ∀ (key : Bytes) (d : RangeDescriptor),
        (after [.createRange (.new 1 [] [109] []), .createRange (.new 2 [120] [] []),
          .splitRange 1 [100]]).findRangeForKey key = some d ↔
        (∃ id : RangeId, (after [.createRange (.new 1 [] [109] []),
          .createRange (.new 2 [120] [] []), .splitRange 1 [100]]).ranges[id]? = some d) ∧
          d.contains key = true := by
  have h : Run.Along step NoOverflow new
      [.createRange (.new 1 [] [109] []), .createRange (.new 2 [120] [] []),
        .splitRange 1 [100]] := by decide +kernel
  exact ⟨h, (queries_exact _ h).2⟩

end Catalog

end AresaDb.Pd
