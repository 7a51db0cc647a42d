import AresaDb.Pd.CatalogSteps

/-! # The routing invariant

`Routed` holds of every catalog that commands can produce, counter overflow included: ranges are
filed under their own id, their spans tile the key space, every live range is found under its
start key, and no start-key entry (live or stale) lies strictly inside a live span.

It is what the neighbour queries need.  A key is routed to the live range that contains it
(`findRangeForKey_eq_some_iff`), and a span that passes the two-neighbour overlap check meets no
live range (`findOverlap_eq_none`).  The effects on spans are the abstract operations of
`Tiling`, so what a split or a merge does to ownership is read off there. -/

namespace AresaDb.Pd

open ByteOrder

namespace Catalog

variable {c : Catalog}

/-- The span of each live range. -/
def tiling (c : Catalog) : Tiling RangeId Bytes := fun id => c.ranges[id]?.map RangeDescriptor.span

theorem tiling_eq_some {id : RangeId} {d : RangeDescriptor} (h : c.ranges[id]? = some d) :
    c.tiling id = some d.span := by simp [tiling, h]

theorem owns_iff {id : RangeId} {k : Bytes} :
    c.tiling.Owns id k ↔ ∃ d, c.ranges[id]? = some d ∧ k ∈ d.span := by
  unfold Tiling.Owns tiling
  simp

/-! ### Lookups after an effect -/

theorem ranges_loadRange (d : RangeDescriptor) (i : RangeId) :
    (c.loadRange d).ranges[i]? = if d.rangeId = i then some d else c.ranges[i]? :=
  OrdMap.get_insert _ _ _ _

theorem ranges_withRange (id : RangeId) (d : RangeDescriptor) (i : RangeId) :
    (c.withRange id d).ranges[i]? = if id = i then some d else c.ranges[i]? :=
  OrdMap.get_insert _ _ _ _

theorem ranges_splitInto (id : RangeId) (parent : RangeDescriptor) (key : Bytes) (i : RangeId) :
    (c.splitInto id parent key).ranges[i]? =
      if c.nextRangeId = i then some (c.splitRhs parent key)
      else if id = i then some (splitLhs parent key) else c.ranges[i]? := by
  unfold splitInto
  rw [OrdMap.get_insert, OrdMap.get_insert]

theorem ranges_mergeInto (left right : RangeId) (l r : RangeDescriptor) (i : RangeId) :
    (c.mergeInto left right l r).ranges[i]? =
      if left = i then some (mergedLeft l r) else if right = i then none else c.ranges[i]? := by
  unfold mergeInto
  rw [OrdMap.get_insert, OrdMap.get_erase]

/-! ### Effects on the tiling -/

theorem tiling_loadRange (d : RangeDescriptor) :
    (c.loadRange d).tiling = c.tiling.place d.rangeId d.span := by
  funext i
  unfold tiling Tiling.place
  rw [ranges_loadRange]
  by_cases h : i = d.rangeId
  · simp [h]
  · have h' : ¬ d.rangeId = i := fun he => h he.symm
    simp [h, h']

/-- Rewriting a descriptor without touching its span leaves the tiling alone. -/
theorem tiling_withRange {id : RangeId} {d d' : RangeDescriptor} (hd : c.ranges[id]? = some d)
    (hspan : d'.span = d.span) : (c.withRange id d').tiling = c.tiling := by
  funext i
  unfold tiling
  rw [ranges_withRange]
  by_cases h : id = i
  · subst h
    simp [hd, hspan]
  · simp [h]

theorem splitKey_ne_nil {s key : Bytes} (h : s < key) : key ≠ [] := by
  intro he
  rw [he] at h
  simp at h

theorem span_splitLhs {parent : RangeDescriptor} {key : Bytes} (hlo : parent.startKey < key) :
    (splitLhs parent key).span = parent.span.below key := by
  have hne := RangeDescriptor.endBound_of_ne_nil (splitKey_ne_nil hlo)
  exact Span.ext rfl hne

theorem span_splitRhs (parent : RangeDescriptor) (key : Bytes) :
    (c.splitRhs parent key).span = parent.span.above key := rfl

theorem span_mergedLeft (l r : RangeDescriptor) : (mergedLeft l r).span = l.span.join r.span := rfl

theorem tiling_splitInto {id : RangeId} {parent : RangeDescriptor} {key : Bytes}
    (hlo : parent.startKey < key) :
    (c.splitInto id parent key).tiling = c.tiling.split id c.nextRangeId parent.span key := by
  funext i
  unfold tiling Tiling.split Tiling.place
  rw [ranges_splitInto]
  by_cases hn : i = c.nextRangeId
  · simp [hn, span_splitRhs]
  · have hn' : c.nextRangeId ≠ i := fun he => hn he.symm
    by_cases hi : i = id
    · subst hi
      simp [hn, hn', span_splitLhs hlo]
    · have hi' : ¬ id = i := fun he => hi he.symm
      simp [hn, hn', hi, hi']

theorem tiling_mergeInto (left right : RangeId) (l r : RangeDescriptor) :
    (c.mergeInto left right l r).tiling = c.tiling.merge left right l.span r.span := by
  funext i
  unfold tiling Tiling.merge Tiling.place Tiling.remove
  rw [ranges_mergeInto]
  by_cases hl : i = left
  · simp [hl, span_mergedLeft]
  · have hl' : left ≠ i := fun he => hl he.symm
    by_cases hr : i = right
    · subst hr
      simp [hl, hl']
    · have hr' : ¬ right = i := fun he => hr he.symm
      simp [hl, hl', hr, hr']

theorem span_hi_eq_lo {l r : RangeDescriptor} (hadj : l.endKey = r.startKey)
    (hend : l.endKey ≠ []) :
    l.span.hi = r.span.lo := by
  rw [RangeDescriptor.span_hi, RangeDescriptor.endBound_of_ne_nil hend, hadj]
  rfl

/-! ### The routing invariant -/

/-- What key routing rests on, in every catalog that commands can produce. -/
structure Routed (c : Catalog) : Prop where
  keyed : ∀ (id : RangeId) d, c.ranges[id]? = some d → d.rangeId = id
  tiled : c.tiling.Valid
  indexed : ∀ (id : RangeId) d, c.ranges[id]? = some d → c.byStart[d.startKey]? = some id
  outside : ∀ (s : Bytes) (i : RangeId), c.byStart[s]? = some i →
    ∀ (id : RangeId) d, c.ranges[id]? = some d → s ∈ d.span → d.startKey = s

theorem Routed.proper (h : c.Routed) {id : RangeId} {d : RangeDescriptor}
    (hd : c.ranges[id]? = some d) : d.span.Proper := h.tiled.proper id d.span (tiling_eq_some hd)

theorem Routed.eq_of_mem (h : c.Routed) {i j : RangeId} {d e : RangeDescriptor} {k : Bytes}
    (hd : c.ranges[i]? = some d) (he : c.ranges[j]? = some e) (hkd : k ∈ d.span)
    (hke : k ∈ e.span) : i = j :=
  h.tiled.unique i j k (owns_iff.mpr ⟨d, hd, hkd⟩) (owns_iff.mpr ⟨e, he, hke⟩)

/-- In a live span the predecessor query of the start-key index ends at its own start. -/
theorem Routed.lastLE?_eq (h : c.Routed) {id : RangeId} {d : RangeDescriptor} {k : Bytes}
    (hd : c.ranges[id]? = some d) (hk : k ∈ d.span) :
    c.byStart.lastLE? k = some (d.startKey, id) := by
  rw [OrdMap.lastLE?_eq_some_iff]
  refine ⟨h.indexed id d hd, hk.1, ?_⟩
  intro s i hs hsk
  by_contra hlt
  rw [not_le] at hlt
  have hmem : s ∈ d.span := ⟨le_of_lt hlt, lt_of_le_of_lt (WithTop.coe_le_coe.mpr hsk) hk.2⟩
  exact absurd (h.outside s i hs id d hd hmem) (ne_of_lt hlt)

/-- **Key routing is exact**: the range found for a key is the live range that contains it. -/
theorem Routed.findRangeForKey_eq_some_iff (h : c.Routed) {k : Bytes} {d : RangeDescriptor} :
    c.findRangeForKey k = some d ↔ ∃ id : RangeId, c.ranges[id]? = some d ∧ k ∈ d.span := by
  constructor
  · intro hf
    unfold findRangeForKey at hf
    simp only [Option.bind_eq_bind, Option.bind_eq_some_iff] at hf
    obtain ⟨⟨s, id⟩, _, e, he, hf⟩ := hf
    split_ifs at hf with hc
    obtain rfl := Option.some.inj hf
    exact ⟨id, he, RangeDescriptor.contains_iff.mp hc⟩
  · rintro ⟨id, hd, hk⟩
    have hc : d.contains k = true := RangeDescriptor.contains_iff.mpr hk
    simp [findRangeForKey, h.lastLE?_eq hd hk, hd, hc]

theorem Routed.findRangeForKey_isSome_iff (h : c.Routed) {k : Bytes} :
    (c.findRangeForKey k).isSome = true ↔ c.tiling.Covered k := by
  rw [Option.isSome_iff_exists]
  constructor
  · rintro ⟨d, hd⟩
    obtain ⟨id, hid, hk⟩ := h.findRangeForKey_eq_some_iff.mp hd
    exact ⟨id, owns_iff.mpr ⟨d, hid, hk⟩⟩
  · rintro ⟨id, hid⟩
    obtain ⟨d, hd, hk⟩ := owns_iff.mp hid
    exact ⟨d, h.findRangeForKey_eq_some_iff.mpr ⟨id, hd, hk⟩⟩

/-- The owner of a key, as an id. -/
theorem Routed.owner_eq_some_iff (h : c.Routed) {k : Bytes} {id : RangeId} :
    (c.findRangeForKey k).map (·.rangeId) = some id ↔ c.tiling.Owns id k := by
  rw [Option.map_eq_some_iff, owns_iff]
  constructor
  · rintro ⟨d, hd, rfl⟩
    obtain ⟨i, hi, hk⟩ := h.findRangeForKey_eq_some_iff.mp hd
    exact ⟨d, by rw [h.keyed i d hi]; exact hi, hk⟩
  · rintro ⟨d, hd, hk⟩
    exact ⟨d, h.findRangeForKey_eq_some_iff.mpr ⟨id, hd, hk⟩, h.keyed id d hd⟩

/-- **Overlap detection is complete**: a span that `find_overlap` passes meets no live range and
holds no start-key entry past its own start. -/
theorem Routed.findOverlap_eq_none (h : c.Routed) {s e : Bytes}
    (hf : c.findOverlap s e = .ok none) :
    (∀ k ∈ (⟨s, RangeDescriptor.endBound e⟩ : Span Bytes), ¬ c.tiling.Covered k) ∧
      ∀ (k : Bytes) (i : RangeId), c.byStart[k]? = some i → s < k →
          RangeDescriptor.endBound e ≤ k := by
  have hsuc : c.successorOverlap s e = none := by
    unfold findOverlap at hf
    cases hp : c.byStart.lastLE? s with
    | none => simpa [hp] using hf
    | some p =>
        cases hr : c.ranges[p.2]? with
        | none => simp [hp, hr] at hf
        | some pred =>
            simp only [hp, hr] at hf
            split_ifs at hf
            · simp at hf
            · simpa using hf
  have hpast : ∀ (k : Bytes) (i : RangeId), c.byStart[k]? = some i → s < k →
      RangeDescriptor.endBound e ≤ k := by
    intro k i hk hsk
    cases hg : c.byStart.firstGT? s with
    | none => exact absurd ((OrdMap.firstGT?_eq_none_iff _ _).mp hg k i hk) (not_le.mpr hsk)
    | some p =>
        obtain ⟨t, j⟩ := p
        have ht := ((OrdMap.firstGT?_eq_some_iff _ _ _ _).mp hg).2.2 k i hk hsk
        unfold successorOverlap at hsuc
        simp only [hg] at hsuc
        split_ifs at hsuc with hb
        have hnot : ¬ (t : WithTop Bytes) < RangeDescriptor.endBound e := by
          rw [RangeDescriptor.lt_endBound_iff]
          simpa using hb
        exact le_trans (not_lt.mp hnot) (WithTop.coe_le_coe.mpr ht)
  refine ⟨?_, hpast⟩
  rintro k hk ⟨id, hid⟩
  obtain ⟨d, hd, hkd⟩ := owns_iff.mp hid
  -- A live range that starts after `s` is past the end; one that contains `s` is the predecessor.
  rcases lt_or_ge s d.startKey with hlt | hge
  · have hend := hpast d.startKey id (h.indexed id d hd) hlt
    have hlt' := lt_of_lt_of_le hk.2 (le_trans hend (WithTop.coe_le_coe.mpr hkd.1))
    exact absurd hlt' (lt_irrefl _)
  · have hs : s ∈ d.span := ⟨hge, lt_of_le_of_lt (WithTop.coe_le_coe.mpr hk.1) hkd.2⟩
    have hs' := (RangeDescriptor.lt_endBound_iff.mp hs.2)
    unfold findOverlap at hf
    simp only [h.lastLE?_eq hd hs, hd] at hf
    rw [if_pos (by simpa using hs')] at hf
    simp at hf

/-! ### Every step keeps the routing invariant -/

theorem routed_new : Routed new where
  keyed := by simp [new]
  tiled := by
    have h : new.tiling = fun _ => none := by
      funext i
      simp [tiling, new]
    rw [h]
    exact Tiling.valid_empty
  indexed := by simp [new]
  outside := by simp [new]

/-- No live range starts where a span that passed the overlap check starts. -/
theorem Routed.startKey_ne_of_free (h : c.Routed) {d : RangeDescriptor} (hspan : d.span.Proper)
    (hfree : c.findOverlap d.startKey d.endKey = .ok none) (i : RangeId) (e : RangeDescriptor)
    (he : c.ranges[i]? = some e) : e.startKey ≠ d.startKey := by
  intro hs
  refine (h.findOverlap_eq_none hfree).1 e.startKey ?_
    ⟨i, owns_iff.mpr ⟨e, he, (h.proper he).lo_mem⟩⟩
  rw [hs]
  exact hspan.lo_mem

/-- No live range starts at a key strictly inside another one. -/
theorem Routed.startKey_ne_of_inside (h : c.Routed) {id : RangeId} {parent : RangeDescriptor}
    {key : Bytes} (hparent : c.ranges[id]? = some parent) (hlo : parent.startKey < key)
    (hhi : (key : WithTop Bytes) < parent.span.hi) (i : RangeId) (e : RangeDescriptor)
    (he : c.ranges[i]? = some e) : e.startKey ≠ key := by
  intro hs
  have hmem : key ∈ e.span := hs ▸ (h.proper he).lo_mem
  have hi := h.eq_of_mem he hparent hmem ⟨le_of_lt hlo, hhi⟩
  subst hi
  rw [hparent] at he
  obtain rfl := Option.some.inj he
  exact absurd hs (ne_of_lt hlo)

theorem Routed.loadRange (h : c.Routed) {d : RangeDescriptor} (hspan : d.span.Proper)
    (hfree : c.findOverlap d.startKey d.endKey = .ok none) : (c.loadRange d).Routed := by
  obtain ⟨hcov, hpast⟩ := h.findOverlap_eq_none hfree
  have hstart := h.startKey_ne_of_free hspan hfree
  constructor
  · intro i e he
    rw [ranges_loadRange] at he
    split_ifs at he with hi
    · rw [← Option.some.inj he, hi]
    · exact h.keyed i e he
  · rw [tiling_loadRange]
    refine h.tiled.place hspan ?_
    intro j x hx hj
    exact absurd ⟨j, hj⟩ (hcov x hx)
  · intro i e he
    rw [ranges_loadRange] at he
    show (c.byStart.insert d.startKey d.rangeId)[e.startKey]? = some i
    split_ifs at he with hi
    · rw [← Option.some.inj he, OrdMap.get_insert_self, hi]
    · rw [OrdMap.get_insert_of_ne _ _ (hstart i e he).symm]
      exact h.indexed i e he
  · intro s j hs i e he hmem
    have hs' : (c.byStart.insert d.startKey d.rangeId)[s]? = some j := hs
    rw [OrdMap.get_insert] at hs'
    rw [ranges_loadRange] at he
    split_ifs at he with hi
    · obtain rfl := Option.some.inj he
      split_ifs at hs' with hsd
      · exact hsd
      · -- An older entry strictly inside the new span contradicts the successor check.
        have hlt := lt_of_le_of_ne hmem.1 hsd
        exact absurd (lt_of_lt_of_le hmem.2 (hpast s j hs' hlt)) (lt_irrefl _)
    · split_ifs at hs' with hsd
      · subst hsd
        exact absurd ⟨i, owns_iff.mpr ⟨e, he, hmem⟩⟩ (hcov d.startKey hspan.lo_mem)
      · exact h.outside s j hs' i e he hmem

theorem Routed.splitInto (h : c.Routed) {id : RangeId} {parent : RangeDescriptor} {key : Bytes}
    (hparent : c.ranges[id]? = some parent) (hlo : parent.startKey < key)
    (hhi : (key : WithTop Bytes) < parent.span.hi) : (c.splitInto id parent key).Routed := by
  have hkey : key ∈ parent.span := ⟨le_of_lt hlo, hhi⟩
  have hne := h.startKey_ne_of_inside hparent hlo hhi
  constructor
  · intro i e he
    rw [ranges_splitInto] at he
    split_ifs at he with h₁ h₂
    · rw [← Option.some.inj he]
      exact h₁
    · rw [← Option.some.inj he, ← h₂]
      exact h.keyed id parent hparent
    · exact h.keyed i e he
  · rw [tiling_splitInto hlo]
    exact h.tiled.split (tiling_eq_some hparent) hlo hhi
  · intro i e he
    rw [ranges_splitInto] at he
    show (c.byStart.insert key c.nextRangeId)[e.startKey]? = some i
    split_ifs at he with h₁ h₂
    · rw [← Option.some.inj he, ← h₁]
      exact OrdMap.get_insert_self _ _ _
    · rw [← Option.some.inj he, ← h₂]
      show (c.byStart.insert key c.nextRangeId)[parent.startKey]? = some id
      rw [OrdMap.get_insert_of_ne _ _ (ne_of_gt hlo)]
      exact h.indexed id parent hparent
    · rw [OrdMap.get_insert_of_ne _ _ (hne i e he).symm]
      exact h.indexed i e he
  · intro s j hs i e he hmem
    have hs' : (c.byStart.insert key c.nextRangeId)[s]? = some j := hs
    rw [OrdMap.get_insert] at hs'
    rw [ranges_splitInto] at he
    split_ifs at he with h₁ h₂
    · obtain rfl := Option.some.inj he
      rw [span_splitRhs, Span.mem_above hlo] at hmem
      split_ifs at hs' with hsk
      · exact hsk
      · have hs'' := h.outside s j hs' id parent hparent hmem.1
        rw [← hs''] at hmem
        exact absurd hlo (not_lt.mpr hmem.2)
    · obtain rfl := Option.some.inj he
      rw [span_splitLhs hlo, Span.mem_below hhi] at hmem
      split_ifs at hs' with hsk
      · rw [hsk] at hmem
        exact absurd hmem.2 (lt_irrefl s)
      · exact h.outside s j hs' id parent hparent hmem.1
    · split_ifs at hs' with hsk
      · rw [← hsk] at hmem
        have hi := h.eq_of_mem hparent he hkey hmem
        exact absurd hi h₂
      · exact h.outside s j hs' i e he hmem

theorem Routed.mergeInto (h : c.Routed) {left right : RangeId} {l r : RangeDescriptor}
    (hl : c.ranges[left]? = some l) (hr : c.ranges[right]? = some r) (hadj : l.endKey = r.startKey)
    (hend : l.endKey ≠ []) (hne : left ≠ right) : (c.mergeInto left right l r).Routed := by
  have htouch := span_hi_eq_lo hadj hend
  have hstart : ∀ (i : RangeId) e, c.ranges[i]? = some e → e.startKey = r.startKey → i = right :=
    fun i e he hs => h.tiled.lo_injective (tiling_eq_some he) (tiling_eq_some hr) hs
  constructor
  · intro i e he
    rw [ranges_mergeInto] at he
    split_ifs at he with h₁
    · rw [← Option.some.inj he, ← h₁]
      exact h.keyed left l hl
    · exact h.keyed i e he
  · rw [tiling_mergeInto]
    exact h.tiled.merge (tiling_eq_some hl) (tiling_eq_some hr) htouch
  · intro i e he
    rw [ranges_mergeInto] at he
    show (c.byStart.erase r.startKey)[e.startKey]? = some i
    split_ifs at he with h₁ h₂
    · rw [← Option.some.inj he, ← h₁]
      show (c.byStart.erase r.startKey)[l.startKey]? = some left
      rw [OrdMap.get_erase_of_ne _ fun hs => hne (hstart left l hl hs.symm)]
      exact h.indexed left l hl
    · rw [OrdMap.get_erase_of_ne _ fun hs => h₂ (hstart i e he hs.symm).symm]
      exact h.indexed i e he
  · intro s j hs i e he hmem
    have hs' : (c.byStart.erase r.startKey)[s]? = some j := hs
    rw [OrdMap.get_erase] at hs'
    rw [ranges_mergeInto] at he
    split_ifs at hs' with hsr
    split_ifs at he with h₁ h₂
    · obtain rfl := Option.some.inj he
      rw [span_mergedLeft, Span.mem_join (h.proper hl) (h.proper hr) htouch] at hmem
      rcases hmem with hmem | hmem
      · exact h.outside s j hs' left l hl hmem
      · exact absurd (h.outside s j hs' right r hr hmem) hsr
    · exact h.outside s j hs' i e he hmem

theorem Routed.withRange (h : c.Routed) {id : RangeId} {d d' : RangeDescriptor}
    (hd : c.ranges[id]? = some d) (hid : d'.rangeId = d.rangeId) (hspan : d'.span = d.span) :
    (c.withRange id d').Routed := by
  have hstart : d'.startKey = d.startKey := congrArg Span.lo hspan
  constructor
  · intro i e he
    rw [ranges_withRange] at he
    split_ifs at he with h₁
    · rw [← Option.some.inj he, ← h₁, hid]
      exact h.keyed id d hd
    · exact h.keyed i e he
  · rw [tiling_withRange hd hspan]
    exact h.tiled
  · intro i e he
    rw [ranges_withRange] at he
    split_ifs at he with h₁
    · rw [← Option.some.inj he, ← h₁, hstart]
      exact h.indexed id d hd
    · exact h.indexed i e he
  · intro s j hs i e he hmem
    rw [ranges_withRange] at he
    split_ifs at he with h₁
    · obtain rfl := Option.some.inj he
      rw [hstart]
      rw [hspan] at hmem
      exact h.outside s j hs id d hd hmem
    · exact h.outside s j hs i e he hmem

theorem Routed.withNode (h : c.Routed) (id : NodeId) (info : NodeInfo) :
    (c.withNode id info).Routed := ⟨h.keyed, h.tiled, h.indexed, h.outside⟩

theorem Effect.routed {cmd : PdCommand} {resp : PdResponse} {c' : Catalog}
    (he : Effect c cmd resp c') (h : c.Routed) : c'.Routed := by
  cases he with
  | register info => exact h.withNode _ _
  | heartbeat id seen info hinfo => exact h.withNode _ _
  | create desc hspan hid hgroup hfree => exact h.loadRange hspan hfree
  | split id key parent hparent hlo hhi => exact h.splitInto hparent hlo hhi
  | merge left right l r hl hr hadj hend hrep hne => exact h.mergeInto hl hr hadj hend hne
  | membership id replicas epoch d hd hepoch => exact h.withRange hd rfl rfl
  | lease id lease d hd => exact h.withRange hd rfl rfl

/-- A merge of a range with itself is always rejected: a proper bounded span does not end where
it starts. -/
theorem Routed.not_selfMerge (h : c.Routed) {id : RangeId} {d : RangeDescriptor}
    (hd : c.ranges[id]? = some d) (hself : d.endKey = d.startKey) (hend : d.endKey ≠ []) :
        False := by
  have hp := h.proper hd
  unfold Span.Proper at hp
  rw [span_hi_eq_lo hself hend] at hp
  exact absurd hp (lt_irrefl _)

/-- A command that fails leaves a routed catalog as it was. -/
theorem Failure.eq_self {cmd : PdCommand} {f : Fault} {c' : Catalog} (hf : Failure c cmd f c')
    (h : c.Routed) : c' = c := by
  cases hf with
  | reject cmd e => rfl
  | danglingIndex desc s id hindex hid => rfl
  | selfMerge id d hd hself hend c' => exact (h.not_selfMerge hd hself hend).elim

theorem accepts_of_ok {cmd : PdCommand} {resp : PdResponse} (h : (c.apply cmd).1 = .ok resp) :
    c.Accepts cmd := by
  unfold Accepts
  rw [h]
  rfl

theorem not_accepts_of_error {cmd : PdCommand} {f : Fault} (h : (c.apply cmd).1 = .error f) :
    ¬ c.Accepts cmd := by
  unfold Accepts
  rw [h]
  simp [Except.isOk, Except.toBool]

/-- **What a step can do** to a routed catalog: the effect of an accepted command, or nothing. -/
theorem Routed.step_cases (h : c.Routed) (cmd : PdCommand) :
    (c.Accepts cmd ∧ ∃ resp, (c.apply cmd).1 = .ok resp ∧ Effect c cmd resp (c.step cmd)) ∨
      (¬ c.Accepts cmd ∧ c.step cmd = c) := by
  rcases apply_outcome c cmd with ⟨resp, hr, he⟩ | ⟨f, hr, hf⟩
  · exact Or.inl ⟨accepts_of_ok hr, resp, hr, he⟩
  · exact Or.inr ⟨not_accepts_of_error hr, hf.eq_self h⟩

theorem Routed.step (h : c.Routed) (cmd : PdCommand) : (c.step cmd).Routed := by
  rcases h.step_cases cmd with ⟨_, resp, _, he⟩ | ⟨_, hc⟩
  · exact he.routed h
  · rw [hc]
    exact h

theorem routed_after (cmds : List PdCommand) : (after cmds).Routed :=
  Run.invariant (fun _ cmd h => h.step cmd) routed_new cmds

end Catalog

end AresaDb.Pd
