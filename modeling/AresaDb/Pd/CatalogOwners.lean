import AresaDb.Pd.CatalogRuns

/-! # Key ownership over whole runs

Who owns a key, and what a command may do about it.

`Effect.owner_after` follows one key through one accepted command: its owner stays, or the key is
in the right-hand part of a split, or in the absorbed range of a merge.  From it come coverage
(`coverage_iff`: no key is ever lost, exactly as long as no split allocates the id of a live
range) and the fencing counters (`fenced_after`: along a run without counter overflow epochs and
generations never go back, neither of a range nor of the owner of a key). -/

namespace AresaDb.Pd

open ByteOrder

namespace Catalog

variable {c c' : Catalog} {cmd : PdCommand} {resp : PdResponse}

/-- The id of the range that owns a key. -/
def owner (c : Catalog) (key : Bytes) : Option RangeId := (c.findRangeForKey key).map (·.rangeId)

theorem Routed.owner_eq_iff (h : c.Routed) {key : Bytes} {id : RangeId} :
    c.owner key = some id ↔ ∃ d, c.ranges[id]? = some d ∧ key ∈ d.span := by
  unfold owner
  rw [h.owner_eq_some_iff, owns_iff]

/-! ### One key through one command -/

theorem owner_withRange {rid id : RangeId} {e e' d : RangeDescriptor} {k : Bytes}
    (he : c.ranges[rid]? = some e) (hspan : e'.span = e.span) (hd : c.ranges[id]? = some d)
    (hk : k ∈ d.span) : ∃ d', (c.withRange rid e').ranges[id]? = some d' ∧ k ∈ d'.span := by
  by_cases hid : rid = id
  · subst hid
    rw [hd] at he
    obtain rfl := Option.some.inj he
    refine ⟨e', by rw [ranges_withRange, if_pos rfl], ?_⟩
    rw [hspan]
    exact hk
  · exact ⟨d, by rw [ranges_withRange, if_neg hid, hd], hk⟩

/-- The owner of a key after an accepted command. -/
theorem Effect.owner_after (he : Effect c cmd resp c') (h : c.Routed) (hfresh : c.SplitIdFresh cmd)
    (ha : c.Accepts cmd) {id : RangeId} {d : RangeDescriptor} {k : Bytes}
    (hd : c.ranges[id]? = some d) (hk : k ∈ d.span) :
    (∃ d', c'.ranges[id]? = some d' ∧ k ∈ d'.span) ∨
      (∃ key, cmd = .splitRange id key ∧ key ≤ k ∧ k ∈ (c.splitRhs d key).span ∧
        c'.ranges[c.nextRangeId]? = some (c.splitRhs d key)) ∨
      ∃ left l, cmd = .mergeRanges left id ∧ c.ranges[left]? = some l ∧
        k ∈ (mergedLeft l d).span ∧ c'.ranges[left]? = some (mergedLeft l d) := by
  cases he with
  | register info => exact Or.inl ⟨d, hd, hk⟩
  | heartbeat nid seen info hinfo => exact Or.inl ⟨d, hd, hk⟩
  | create desc hspan hid hgroup hfree =>
      have hne : desc.rangeId ≠ id := by
        intro he
        rw [he, hd] at hid
        cases hid
      exact Or.inl ⟨d, by rw [ranges_loadRange, if_neg hne, hd], hk⟩
  | split p key parent hparent hlo hhi =>
      have hne : c.nextRangeId ≠ id := by
        intro he
        rw [← he, hfresh ha] at hd
        cases hd
      by_cases hp : p = id
      · subst hp
        rw [hd] at hparent
        obtain rfl := Option.some.inj hparent
        by_cases hkey : k < key
        · refine Or.inl ⟨splitLhs d key, ?_, ?_⟩
          · rw [ranges_splitInto, if_neg hne, if_pos rfl]
          · rw [span_splitLhs hlo, Span.mem_below hhi]
            exact ⟨hk, hkey⟩
        · refine Or.inr (Or.inl ⟨key, rfl, not_lt.mp hkey, ?_, ?_⟩)
          · rw [span_splitRhs, Span.mem_above hlo]
            exact ⟨hk, not_lt.mp hkey⟩
          · rw [ranges_splitInto, if_pos rfl]
      · exact Or.inl ⟨d, by rw [ranges_splitInto, if_neg hne, if_neg hp, hd], hk⟩
  | merge left right l r hl hr hadj hend hrep hne =>
      have hjoin := Span.mem_join (h.proper hl) (h.proper hr) (span_hi_eq_lo hadj hend) (x := k)
      by_cases hleft : left = id
      · subst hleft
        rw [hd] at hl
        obtain rfl := Option.some.inj hl
        refine Or.inl ⟨mergedLeft d r, ?_, ?_⟩
        · rw [ranges_mergeInto, if_pos rfl]
        · rw [span_mergedLeft]
          exact hjoin.mpr (Or.inl hk)
      · by_cases hright : right = id
        · subst hright
          rw [hd] at hr
          obtain rfl := Option.some.inj hr
          refine Or.inr (Or.inr ⟨left, l, rfl, hl, ?_, ?_⟩)
          · rw [span_mergedLeft]
            exact hjoin.mpr (Or.inr hk)
          · rw [ranges_mergeInto, if_pos rfl]
        · exact Or.inl ⟨d, by rw [ranges_mergeInto, if_neg hleft, if_neg hright, hd], hk⟩
  | membership rid replicas epoch e he hepoch => exact Or.inl (owner_withRange he rfl hd hk)
  | lease rid lease e he => exact Or.inl (owner_withRange he rfl hd hk)

/-! ### Coverage -/

/-- What a command may do to coverage: no key is lost; a split and a merge leave the covered keys
as they are and re-route only the right-hand part, or the absorbed range. -/
structure CoverageKept (c : Catalog) (cmd : PdCommand) : Prop where
  covered : ∀ k, (c.findRangeForKey k).isSome = true →
    ((c.step cmd).findRangeForKey k).isSome = true
  split : ∀ id key, cmd = .splitRange id key →
    (∀ k, ((c.step cmd).findRangeForKey k).isSome = (c.findRangeForKey k).isSome) ∧
      ∀ k, (c.step cmd).owner k ≠ c.owner k →
        ∃ parent, c.ranges[id]? = some parent ∧ parent.contains k = true ∧ key ≤ k
  merge : ∀ left right, cmd = .mergeRanges left right →
    (∀ k, ((c.step cmd).findRangeForKey k).isSome = (c.findRangeForKey k).isSome) ∧
      ∀ k, (c.step cmd).owner k ≠ c.owner k →
        ∃ r, c.ranges[right]? = some r ∧ r.contains k = true

/-- A split and a merge cover no new key. -/
theorem Effect.covered_of_after (he : Effect c cmd resp c') (h : c.Routed)
    (hfresh : c.SplitIdFresh cmd) (ha : c.Accepts cmd)
    (hcmd : (∃ id key, cmd = .splitRange id key) ∨ ∃ left right, cmd = .mergeRanges left right)
    {k : Bytes} (hk : c'.tiling.Covered k) : c.tiling.Covered k := by
  cases he with
  | split id key parent hparent hlo hhi =>
      have hnone : c.tiling c.nextRangeId = none := by
        unfold tiling
        rw [hfresh ha]
        rfl
      rw [tiling_splitInto hlo] at hk
      exact (Tiling.covered_split (tiling_eq_some hparent) hnone hlo hhi).mp hk
  | merge left right l r hl hr hadj hend hrep hne =>
      rw [tiling_mergeInto] at hk
      exact (Tiling.covered_merge h.tiled (tiling_eq_some hl) (tiling_eq_some hr)
        (span_hi_eq_lo hadj hend)).mp hk
  | register info => simp at hcmd
  | heartbeat nid seen info hinfo => simp at hcmd
  | create desc hspan hid hgroup hfree => simp at hcmd
  | membership rid replicas epoch e he hepoch => simp at hcmd
  | lease rid lease e he => simp at hcmd

theorem Effect.covered_after (he : Effect c cmd resp c') (h : c.Routed)
    (hfresh : c.SplitIdFresh cmd) (ha : c.Accepts cmd) {k : Bytes} (hk : c.tiling.Covered k) :
    c'.tiling.Covered k := by
  obtain ⟨id, hid⟩ := hk
  obtain ⟨d, hd, hk⟩ := owns_iff.mp hid
  rcases he.owner_after h hfresh ha hd hk with ⟨d', hd', hk'⟩ | ⟨key, _, _, hk', hd'⟩ |
    ⟨left, l, _, _, hk', hd'⟩
  · exact ⟨id, owns_iff.mpr ⟨d', hd', hk'⟩⟩
  · exact ⟨c.nextRangeId, owns_iff.mpr ⟨_, hd', hk'⟩⟩
  · exact ⟨left, owns_iff.mpr ⟨_, hd', hk'⟩⟩

/-- A key that an accepted command re-routes lies in the right-hand part of a split or in the
absorbed range of a merge, unless it was not covered before. -/
theorem Effect.owner_changed (he : Effect c cmd resp c') (h : c.Routed)
    (hfresh : c.SplitIdFresh cmd)
    (ha : c.Accepts cmd) {k : Bytes} (hcov : c'.tiling.Covered k → c.tiling.Covered k)
    (hne : c'.owner k ≠ c.owner k) :
    (∃ id key d, cmd = .splitRange id key ∧ c.ranges[id]? = some d ∧ d.contains k = true ∧
      key ≤ k) ∨
    ∃ left right d, cmd = .mergeRanges left right ∧ c.ranges[right]? = some d ∧
      d.contains k = true := by
  have h' := he.routed h
  cases ho : c.owner k with
  | none =>
      have hnot : ¬ c.tiling.Covered k := by
        rw [← h.findRangeForKey_isSome_iff]
        simpa [owner] using ho
      cases ho' : c'.owner k with
      | none => exact absurd (ho'.trans ho.symm) hne
      | some id =>
          obtain ⟨d, hd, hk⟩ := h'.owner_eq_iff.mp ho'
          exact absurd (hcov ⟨id, owns_iff.mpr ⟨d, hd, hk⟩⟩) hnot
  | some id =>
      obtain ⟨d, hd, hk⟩ := h.owner_eq_iff.mp ho
      have hc := RangeDescriptor.contains_iff.mpr hk
      rcases he.owner_after h hfresh ha hd hk with hsame | ⟨key, hcmd, hkey, _⟩ | ⟨left, l, hcmd, _⟩
      · exact absurd ((h'.owner_eq_iff.mpr hsame).trans ho.symm) hne
      · exact Or.inl ⟨id, key, d, hcmd, hd, hc, hkey⟩
      · exact Or.inr ⟨left, id, d, hcmd, hd, hc⟩

/-- A split that allocates the id of a live range loses the keys of that range. -/
theorem lost_of_splitId_live (h : c.Routed) {id : RangeId} {key : Bytes}
    {parent e : RangeDescriptor}
    (hparent : c.ranges[id]? = some parent) (hlo : parent.startKey < key)
    (hhi : (key : WithTop Bytes) < parent.span.hi) (he : c.ranges[c.nextRangeId]? = some e) :
    ¬ (c.splitInto id parent key).tiling.Covered e.startKey := by
  have hmem := (h.proper he).lo_mem
  intro ⟨m, hm⟩
  obtain ⟨d, hd, hk⟩ := owns_iff.mp hm
  rw [ranges_splitInto] at hd
  split_ifs at hd with h₁ h₂
  · obtain rfl := Option.some.inj hd
    rw [span_splitRhs, Span.mem_above hlo] at hk
    have hid := h.eq_of_mem hparent he hk.1 hmem
    rw [hid, he] at hparent
    obtain rfl := Option.some.inj hparent
    exact absurd hlo (not_lt.mpr hk.2)
  · obtain rfl := Option.some.inj hd
    rw [span_splitLhs hlo, Span.mem_below hhi] at hk
    exact h₁ ((h.eq_of_mem hparent he hk.1 hmem).symm.trans h₂)
  · exact h₁ (h.eq_of_mem he hd hmem hk)

theorem Routed.coverageKept (h : c.Routed) (hfresh : c.SplitIdFresh cmd) : c.CoverageKept cmd := by
  rcases h.step_cases cmd with ⟨ha, resp, _, he⟩ | ⟨_, hc⟩
  · have h' := he.routed h
    have hcov : ∀ k, (c.findRangeForKey k).isSome = true →
        ((c.step cmd).findRangeForKey k).isSome = true := by
      intro k hk
      rw [h.findRangeForKey_isSome_iff] at hk
      rw [h'.findRangeForKey_isSome_iff]
      exact he.covered_after h hfresh ha hk
    have hsame : ((∃ id key, cmd = .splitRange id key) ∨
        ∃ left right, cmd = .mergeRanges left right) → ∀ k,
        ((c.step cmd).findRangeForKey k).isSome = (c.findRangeForKey k).isSome := by
      intro hcmd k
      refine Bool.eq_iff_iff.mpr ⟨?_, hcov k⟩
      intro hk
      rw [h'.findRangeForKey_isSome_iff] at hk
      rw [h.findRangeForKey_isSome_iff]
      exact he.covered_of_after h hfresh ha hcmd hk
    refine ⟨hcov, ?_, ?_⟩
    · intro id key hcmd
      refine ⟨hsame (Or.inl ⟨id, key, hcmd⟩), ?_⟩
      intro k hne
      have hback := fun hk => he.covered_of_after h hfresh ha (Or.inl ⟨id, key, hcmd⟩) (k := k) hk
      rcases he.owner_changed h hfresh ha hback hne with ⟨i, key', d, hcmd', hd, hc, hk⟩ |
        ⟨_, _, _, hcmd', _⟩
      · rw [hcmd] at hcmd'
        obtain ⟨rfl, rfl⟩ := PdCommand.splitRange.inj hcmd'
        exact ⟨d, hd, hc, hk⟩
      · rw [hcmd] at hcmd'
        cases hcmd'
    · intro left right hcmd
      refine ⟨hsame (Or.inr ⟨left, right, hcmd⟩), ?_⟩
      intro k hne
      have hback := fun hk => he.covered_of_after h hfresh ha (Or.inr ⟨left, right, hcmd⟩)
        (k := k) hk
      rcases he.owner_changed h hfresh ha hback hne with ⟨_, _, _, hcmd', _⟩ |
        ⟨l, r, d, hcmd', hd, hc⟩
      · rw [hcmd] at hcmd'
        cases hcmd'
      · rw [hcmd] at hcmd'
        obtain ⟨rfl, rfl⟩ := PdCommand.mergeRanges.inj hcmd'
        exact ⟨d, hd, hc⟩
  · constructor
    · intro k hk
      rw [hc]
      exact hk
    · intro id key _
      rw [hc]
      exact ⟨fun _ => rfl, fun _ hne => absurd rfl hne⟩
    · intro left right _
      rw [hc]
      exact ⟨fun _ => rfl, fun _ hne => absurd rfl hne⟩

theorem Routed.splitIdFresh_of_covered (h : c.Routed)
    (hcov : ∀ k, (c.findRangeForKey k).isSome = true →
      ((c.step cmd).findRangeForKey k).isSome = true) : c.SplitIdFresh cmd := by
  cases cmd with
  | splitRange id key =>
      intro ha
      cases hlive : c.ranges[c.nextRangeId]? with
      | none => rfl
      | some e =>
          rcases h.step_cases (.splitRange id key) with ⟨_, resp, _, he⟩ | ⟨hna, _⟩
          · have h' := he.routed h
            have hbefore : (c.findRangeForKey e.startKey).isSome = true :=
              h.findRangeForKey_isSome_iff.mpr
                ⟨_, owns_iff.mpr ⟨e, hlive, (h.proper hlive).lo_mem⟩⟩
            have hafter := h'.findRangeForKey_isSome_iff.mp (hcov _ hbefore)
            generalize c.step (.splitRange id key) = c' at he hafter
            cases he with
            | split id key parent hparent hlo hhi =>
                exact absurd hafter (lost_of_splitId_live h hparent hlo hhi hlive)
          · exact absurd ha hna
  | _ => trivial

/-- Every key is routed, and to the one range that contains it. -/
def FullyCovered (c : Catalog) : Prop :=
  ∀ k, (c.findRangeForKey k).isSome = true ∧
    ∃! id : RangeId, ∃ d, c.ranges[id]? = some d ∧ d.contains k = true

theorem Routed.fullyCovered (h : c.Routed) (hcov : ∀ k, (c.findRangeForKey k).isSome = true) :
    c.FullyCovered := by
  intro k
  refine ⟨hcov k, ?_⟩
  obtain ⟨id, hid, huniq⟩ := h.tiled.existsUnique (h.findRangeForKey_isSome_iff.mp (hcov k))
  obtain ⟨d, hd, hk⟩ := owns_iff.mp hid
  refine ⟨id, ⟨d, hd, RangeDescriptor.contains_iff.mpr hk⟩, ?_⟩
  rintro j ⟨e, he, hc⟩
  exact huniq j (owns_iff.mpr ⟨e, he, RangeDescriptor.contains_iff.mp hc⟩)

/-- An accepted creation of the unbounded range covers every key. -/
theorem Routed.covered_create_all (h : c.Routed) {desc : RangeDescriptor}
    (hstart : desc.startKey = []) (hend : desc.endKey = []) (ha : c.Accepts (.createRange desc))
    (k : Bytes) : ((c.step (.createRange desc)).findRangeForKey k).isSome = true := by
  rcases h.step_cases (.createRange desc) with ⟨_, resp, _, he⟩ | ⟨hna, _⟩
  · have h' := he.routed h
    generalize c.step (.createRange desc) = c' at he h'
    cases he with
    | create desc hspan hid hgroup hfree =>
        rw [h'.findRangeForKey_isSome_iff]
        refine ⟨desc.rangeId, owns_iff.mpr ⟨desc, by rw [ranges_loadRange, if_pos rfl], ?_⟩⟩
        rw [← RangeDescriptor.contains_iff]
        simp [RangeDescriptor.contains, hstart, hend]
  · exact absurd ha hna

/-- **Coverage**: every step of a run keeps coverage, and the whole key space stays covered once
the unbounded range has been created, if and only if no accepted split runs while the next range
id belongs to a live range. -/
theorem coverage_iff (cmds : List PdCommand) :
    (Run.Along step CoverageKept new cmds ∧
      ∀ before desc later, before ++ .createRange desc :: later <+: cmds → desc.startKey = [] →
        desc.endKey = [] → (after before).Accepts (.createRange desc) →
        (after (before ++ .createRange desc :: later)).FullyCovered) ↔
      Run.Along step SplitIdFresh new cmds := by
  constructor
  · rintro ⟨h, _⟩
    exact h.imp_of_invariant (fun _ cmd hr _ => hr.step cmd)
      (fun _ _ hr hk => hr.splitIdFresh_of_covered hk.covered) routed_new
  · intro h
    have hkept : Run.Along step CoverageKept new cmds :=
      h.imp_of_invariant (fun _ cmd hr _ => hr.step cmd) (fun _ _ hr hf => hr.coverageKept hf)
        routed_new
    refine ⟨hkept, ?_⟩
    intro before desc later hp hstart hend ha
    refine (routed_after _).fullyCovered ?_
    have hsplit := (Run.along_append.mp (hkept.upto hp)).2.2
    have hfirst := (routed_after before).covered_create_all hstart hend ha
    have hrun : after (before ++ .createRange desc :: later) =
        Run.run step ((after before).step (.createRange desc)) later := by
      unfold after
      rw [Run.run_append, Run.run_cons]
    rw [hrun]
    have hstep : ∀ (c : Catalog) (cmd : PdCommand), (∀ k, (c.findRangeForKey k).isSome = true) →
        c.CoverageKept cmd → ∀ k, ((c.step cmd).findRangeForKey k).isSome = true :=
      fun _ _ hall hk k => hk.covered k (hall k)
    exact hsplit.invariant hstep hfirst

/-- Range 0 is live when the counter wraps around; the split that allocates id 0 overwrites it and
its keys have no range any more. -/
theorem coverage_lost_on_wrap :
    ((after [.createRange (.new 0 [97] [98] []), .createRange (.new (u64Max - 1) [109] [110] []),
        .splitRange (u64Max - 1) [109, 1]]).findRangeForKey [97]).isSome = true ∧
      ((after [.createRange (.new 0 [97] [98] []), .createRange (.new (u64Max - 1) [109] [110] []),
        .splitRange (u64Max - 1) [109, 1], .splitRange u64Max [109, 2]]).findRangeForKey
          [97]).isSome = false := by
  refine ⟨by decide +kernel, by decide +kernel⟩

/-! ### Fencing counters -/

/-- How a command may rewrite the descriptor of a range that stays live. -/
theorem Effect.descriptor_cases (he : Effect c cmd resp c') (hfresh : c.SplitIdFresh cmd)
    (ha : c.Accepts cmd) {id : RangeId} {d d' : RangeDescriptor} (hd : c.ranges[id]? = some d)
    (hd' : c'.ranges[id]? = some d') :
    d' = d ∨ (∃ key, cmd = .splitRange id key ∧ d' = splitLhs d key) ∨
      (∃ right r, cmd = .mergeRanges id right ∧ c.ranges[right]? = some r ∧ d' = mergedLeft d r) ∨
      (∃ replicas epoch, d.epoch < epoch ∧ d' = { d with replicas := replicas, epoch := epoch }) ∨
      ∃ lease, d' = { d with lease := lease } := by
  cases he with
  | register info =>
      left
      exact Option.some.inj (hd'.symm.trans hd)
  | heartbeat nid seen info hinfo =>
      left
      exact Option.some.inj (hd'.symm.trans hd)
  | create desc hspan hid hgroup hfree =>
      have hne : desc.rangeId ≠ id := by
        intro he
        rw [he, hd] at hid
        cases hid
      left
      rw [ranges_loadRange, if_neg hne] at hd'
      exact Option.some.inj (hd'.symm.trans hd)
  | split p key parent hparent hlo hhi =>
      have hne : c.nextRangeId ≠ id := by
        intro he
        rw [← he, hfresh ha] at hd
        cases hd
      rw [ranges_splitInto, if_neg hne] at hd'
      split_ifs at hd' with hp
      · subst hp
        rw [hd] at hparent
        obtain rfl := Option.some.inj hparent
        exact Or.inr (Or.inl ⟨key, rfl, (Option.some.inj hd').symm⟩)
      · exact Or.inl (Option.some.inj (hd'.symm.trans hd))
  | merge left right l r hl hr hadj hend hrep hne =>
      rw [ranges_mergeInto] at hd'
      split_ifs at hd' with hleft
      · subst hleft
        rw [hd] at hl
        obtain rfl := Option.some.inj hl
        exact Or.inr (Or.inr (Or.inl ⟨right, r, rfl, hr, (Option.some.inj hd').symm⟩))
      · exact Or.inl (Option.some.inj (hd'.symm.trans hd))
  | membership rid replicas epoch e he hepoch =>
      rw [ranges_withRange] at hd'
      split_ifs at hd' with hid
      · subst hid
        rw [hd] at he
        obtain rfl := Option.some.inj he
        exact Or.inr (Or.inr (Or.inr (Or.inl
          ⟨replicas, epoch, hepoch, (Option.some.inj hd').symm⟩)))
      · exact Or.inl (Option.some.inj (hd'.symm.trans hd))
  | lease rid lease e he =>
      rw [ranges_withRange] at hd'
      split_ifs at hd' with hid
      · subst hid
        rw [hd] at he
        obtain rfl := Option.some.inj he
        exact Or.inr (Or.inr (Or.inr (Or.inr ⟨lease, (Option.some.inj hd').symm⟩)))
      · exact Or.inl (Option.some.inj (hd'.symm.trans hd))

/-- What one command may do to the counters of a descriptor. -/
structure Advances (d d' : RangeDescriptor) : Prop where
  epoch_le : d.epoch ≤ d'.epoch
  generation_le : d.generation ≤ d'.generation
  replicas : d'.replicas ≠ d.replicas → d.epoch < d'.epoch
  span : d'.startKey ≠ d.startKey ∨ d'.endKey ≠ d.endKey →
    d.generation < d'.generation ∧ d'.lease = none

theorem Advances.refl (d : RangeDescriptor) : Advances d d :=
  ⟨le_refl _, le_refl _, fun h => absurd rfl h, fun h => by simp at h⟩

theorem Effect.advances (he : Effect c cmd resp c') (hfresh : c.SplitIdFresh cmd)
    (ho : c.NoOverflow cmd) (ha : c.Accepts cmd) {id : RangeId} {d d' : RangeDescriptor}
    (hd : c.ranges[id]? = some d) (hd' : c'.ranges[id]? = some d') : Advances d d' := by
  rcases he.descriptor_cases hfresh ha hd hd' with rfl | ⟨key, rfl, rfl⟩ |
    ⟨right, r, rfl, hr, rfl⟩ | ⟨replicas, epoch, hepoch, rfl⟩ | ⟨lease, rfl⟩
  · exact Advances.refl _
  · have hlt : d.generation < d.generation + 1 := lt_add_one_of_ne_max (ho.split ha hd).2
    exact ⟨le_refl _, le_of_lt hlt, fun h => absurd rfl h, fun _ => ⟨hlt, rfl⟩⟩
  · have hlt : d.generation < max d.generation r.generation + 1 :=
      lt_of_le_of_lt (le_max_left _ _) (lt_add_one_of_ne_max (ho.merge ha hd hr))
    exact ⟨le_refl _, le_of_lt hlt, fun h => absurd rfl h, fun _ => ⟨hlt, rfl⟩⟩
  · exact ⟨le_of_lt hepoch, le_refl _, fun _ => hepoch, fun h => by simp at h⟩
  · exact ⟨le_refl _, le_refl _, fun h => absurd rfl h, fun h => by simp at h⟩

/-- What one command may do to the counters: those of a range that stays live advance, and the
owner of a key hands it to an owner of no smaller generation. -/
structure Fenced (c c' : Catalog) : Prop where
  live : ∀ (id : RangeId) d d', c.ranges[id]? = some d → c'.ranges[id]? = some d' → Advances d d'
  owner : ∀ k d, c.findRangeForKey k = some d →
    ∃ d', c'.findRangeForKey k = some d' ∧ d.generation ≤ d'.generation

theorem Effect.fenced (he : Effect c cmd resp c') (h : c.Sound) (ho : c.NoOverflow cmd)
    (ha : c.Accepts cmd) : Fenced c c' := by
  have hfresh := h.allocated.splitIdFresh cmd
  have h' := he.routed h.routed
  refine ⟨fun id d d' hd hd' => he.advances hfresh ho ha hd hd', ?_⟩
  intro k d hfind
  obtain ⟨id, hd, hk⟩ := h.routed.findRangeForKey_eq_some_iff.mp hfind
  rcases he.owner_after h.routed hfresh ha hd hk with ⟨d', hd', hk'⟩ | ⟨key, hcmd, _, hk', hd'⟩ |
    ⟨left, l, hcmd, hl, hk', hd'⟩
  · exact ⟨d', h'.findRangeForKey_eq_some_iff.mpr ⟨id, hd', hk'⟩,
      (he.advances hfresh ho ha hd hd').generation_le⟩
  · subst hcmd
    refine ⟨_, h'.findRangeForKey_eq_some_iff.mpr ⟨_, hd', hk'⟩, ?_⟩
    exact le_of_lt (lt_add_one_of_ne_max (ho.split ha hd).2)
  · subst hcmd
    refine ⟨_, h'.findRangeForKey_eq_some_iff.mpr ⟨_, hd', hk'⟩, ?_⟩
    exact le_of_lt (lt_of_le_of_lt (le_max_right _ _) (lt_add_one_of_ne_max (ho.merge ha hl hd)))

theorem Sound.fenced (h : c.Sound) (ho : c.NoOverflow cmd) : Fenced c (c.step cmd) := by
  rcases h.routed.step_cases cmd with ⟨ha, resp, _, he⟩ | ⟨_, hc⟩
  · exact he.fenced h ho ha
  · rw [hc]
    refine ⟨?_, fun k d hd => ⟨d, hd, le_refl _⟩⟩
    intro id d d' hd hd'
    rw [Option.some.inj (hd.symm.trans hd')]
    exact Advances.refl _

/-- A range that is live throughout a stretch of a run keeps its counters from going back. -/
theorem counters_le_of_live {before later : List PdCommand}
    (hstep : Run.Along step (fun c cmd => Fenced c (c.step cmd)) (after before) later)
      {id : RangeId}
    {d d' : RangeDescriptor}
    (hlive : ∀ q, q <+: later → ((after (before ++ q)).ranges[id]?).isSome = true)
    (hd : (after before).ranges[id]? = some d)
    (hd' : (after (before ++ later)).ranges[id]? = some d') :
    d.epoch ≤ d'.epoch ∧ d.generation ≤ d'.generation := by
  induction later using List.reverseRecOn generalizing d' with
  | nil =>
      rw [List.append_nil] at hd'
      rw [Option.some.inj (hd.symm.trans hd')]
      exact ⟨le_refl _, le_refl _⟩
  | append_singleton later cmd ih =>
      have hpre : later <+: later ++ [cmd] := List.prefix_append _ _
      obtain ⟨e, he⟩ := Option.isSome_iff_exists.mp (hlive later hpre)
      have hle := ih (hstep.upto hpre) (fun q hq => hlive q (hq.trans hpre)) he
      have hlast := (Run.along_concat.mp hstep).2
      have hrun : Run.run step (after before) later = after (before ++ later) :=
        (Run.run_append step new before later).symm
      rw [← List.append_assoc, after_concat] at hd'
      rw [hrun] at hlast
      have hadv := hlast.live id e d' he hd'
      exact ⟨le_trans hle.1 hadv.epoch_le, le_trans hle.2 hadv.generation_le⟩

/-- **Fencing counters**: along a run without counter overflow every step advances the counters of
the ranges that stay live and of the owners of keys, and a range that stays live keeps its epoch
and generation from ever going back. -/
theorem fenced_after (cmds : List PdCommand) (ho : Run.Along step NoOverflow new cmds) :
    Run.Along step (fun c cmd => Fenced c (c.step cmd)) new cmds ∧
      ∀ before later (id : RangeId) d d', before ++ later <+: cmds →
        (∀ q, q <+: later → ((after (before ++ q)).ranges[id]?).isSome = true) →
        (after before).ranges[id]? = some d → (after (before ++ later)).ranges[id]? = some d' →
        d.epoch ≤ d'.epoch ∧ d.generation ≤ d'.generation := by
  have hfenced : Run.Along step (fun c cmd => Fenced c (c.step cmd)) new cmds :=
    ho.imp_of_invariant (fun _ _ hs hcmd => hs.step hcmd) (fun _ _ hs hcmd => hs.fenced hcmd)
      sound_new
  refine ⟨hfenced, ?_⟩
  intro before later id d d' hp hlive hd hd'
  have hlater := (Run.along_append.mp (hfenced.upto hp)).2
  exact counters_le_of_live hlater hlive hd hd'

/-- A split hands key `z` from range 1 to range 2, and a merge hands it back. -/
theorem fenced_after_split_merge :
    Run.Along step (fun c cmd => Fenced c (c.step cmd)) new
      [.createRange (.new 1 [] [] []), .updateMembership 1 [.voter 4 1] 3, .splitRange 1 [109],
        .mergeRanges 1 2] := by
  have h : Run.Along step NoOverflow new
      [.createRange (.new 1 [] [] []), .updateMembership 1 [.voter 4 1] 3, .splitRange 1 [109],
        .mergeRanges 1 2] := by decide +kernel
  exact (fenced_after _ h).1

end Catalog

end AresaDb.Pd
