import AresaDb.Pd.CatalogInv

/-! # Exact indexes and id allocation

The start-key index of a catalog stays exact as long as no split allocates the id of a live range
(`SplitIdFresh`), and the group index as long as no split allocates the group id of a live range
(`SplitGroupFresh`).  The first condition follows from the id counter being above every live id
(`Allocated`), which every command without counter overflow keeps; the second does not follow
from anything the catalog checks, since group ids come from clients as well as from the counter.

`Sound` collects what holds along every run without overflow. -/

namespace AresaDb.Pd

open ByteOrder

namespace Catalog

variable {c c' : Catalog} {cmd : PdCommand} {resp : PdResponse}

/-- The start-key index is the map from start keys to ids of the live ranges. -/
def StartExact (c : Catalog) : Prop := OrdMap.IsIndex c.byStart c.ranges (·.startKey)

/-- The group index is the map from group ids to ids of the live ranges. -/
def GroupExact (c : Catalog) : Prop := OrdMap.IsIndex c.byGroup c.ranges (·.raftGroupId)

/-- Every entry of the start-key index names a live range. -/
def StartLive (c : Catalog) : Prop := ∀ id ∈ c.byStart.values, ∃ d, c.ranges[id]? = some d

/-- Every live id is below the id counter. -/
def Allocated (c : Catalog) : Prop :=
  ∀ (id : RangeId) d, c.ranges[id]? = some d → id < c.nextRangeId

/-- An accepted split allocates an id that no live range has. -/
def SplitIdFresh (c : Catalog) : PdCommand → Prop
  | .splitRange id key => c.Accepts (.splitRange id key) → c.ranges[c.nextRangeId]? = none
  | _ => True

/-- An accepted split allocates a group id that no live range has. -/
def SplitGroupFresh (c : Catalog) : PdCommand → Prop
  | .splitRange id key =>
      c.Accepts (.splitRange id key) → c.nextRangeId ∉ c.ranges.values.map (·.raftGroupId)
  | _ => True

instance (c : Catalog) : ∀ cmd, Decidable (c.SplitIdFresh cmd)
  | .splitRange id key =>
      inferInstanceAs (Decidable (c.Accepts (.splitRange id key) → c.ranges[c.nextRangeId]? = none))
  | .registerNode _ | .heartbeatNode _ _ | .createRange _ | .mergeRanges _ _
  | .updateMembership _ _ _ | .updateLease _ _ => .isTrue trivial

instance (c : Catalog) : ∀ cmd, Decidable (c.SplitGroupFresh cmd)
  | .splitRange id key =>
      inferInstanceAs (Decidable (c.Accepts (.splitRange id key) →
        c.nextRangeId ∉ c.ranges.values.map (·.raftGroupId)))
  | .registerNode _ | .heartbeatNode _ _ | .createRange _ | .mergeRanges _ _
  | .updateMembership _ _ _ | .updateLease _ _ => .isTrue trivial

theorem StartExact.live (h : c.StartExact) : c.StartLive := by
  intro id hid
  obtain ⟨s, hs⟩ := (OrdMap.mem_values _ _).mp hid
  obtain ⟨d, hd, _⟩ := (h s id).mp hs
  exact ⟨d, hd⟩

theorem Allocated.fresh (h : c.Allocated) : c.ranges[c.nextRangeId]? = none := by
  cases hd : c.ranges[c.nextRangeId]? with
  | none => rfl
  | some d => exact absurd (h _ d hd) (lt_irrefl _)

theorem Allocated.splitIdFresh (h : c.Allocated) (cmd : PdCommand) : c.SplitIdFresh cmd := by
  cases cmd with
  | splitRange id key => exact fun _ => h.fresh
  | _ => trivial

/-! ### Commands without overflow -/

theorem NoOverflow.create {desc : RangeDescriptor} (h : c.NoOverflow (.createRange desc))
    (ha : c.Accepts (.createRange desc)) : desc.rangeId ≠ u64Max := by
  intro he
  exact h (by simp [increments, ha, he])

theorem NoOverflow.split {id : RangeId} {key : Bytes} {parent : RangeDescriptor}
    (h : c.NoOverflow (.splitRange id key)) (ha : c.Accepts (.splitRange id key))
    (hparent : c.ranges[id]? = some parent) :
    c.nextRangeId ≠ u64Max ∧ parent.generation ≠ u64Max := by
  have hmem : c.increments (.splitRange id key) = [c.nextRangeId, parent.generation] := by
    simp [increments, ha, hparent]
  unfold NoOverflow at h
  rw [hmem] at h
  simp only [List.mem_cons, List.not_mem_nil, or_false, not_or] at h
  exact ⟨fun he => h.1 he.symm, fun he => h.2 he.symm⟩

theorem NoOverflow.merge {left right : RangeId} {l r : RangeDescriptor}
    (h : c.NoOverflow (.mergeRanges left right)) (ha : c.Accepts (.mergeRanges left right))
    (hl : c.ranges[left]? = some l) (hr : c.ranges[right]? = some r) :
    max l.generation r.generation ≠ u64Max := by
  intro he
  exact h (by simp [increments, ha, hl, hr, he])

/-! ### The id counter -/

/-- Without overflow the id counter never goes back. -/
theorem Effect.nextRangeId_le (he : Effect c cmd resp c') (ho : c.NoOverflow cmd)
    (ha : c.Accepts cmd) : c.nextRangeId ≤ c'.nextRangeId := by
  cases he with
  | create desc hspan hid hgroup hfree => exact le_max_left _ _
  | split id key parent hparent hlo hhi =>
      exact le_of_lt (lt_add_one_of_ne_max (ho.split ha hparent).1)
  | register info => exact le_refl _
  | heartbeat id seen info hinfo => exact le_refl _
  | merge left right l r hl hr hadj hend hrep hne => exact le_refl _
  | membership id replicas epoch d hd hepoch => exact le_refl _
  | lease id lease d hd => exact le_refl _

/-- Which ids a command makes live: the one a creation names, or the one a split allocates. -/
theorem Effect.live_cases (he : Effect c cmd resp c') {id : RangeId} {d : RangeDescriptor}
    (hd : c'.ranges[id]? = some d) :
    (∃ e, c.ranges[id]? = some e) ∨
      (∃ desc, cmd = .createRange desc ∧ desc.rangeId = id) ∨
      ((∃ p key, cmd = .splitRange p key) ∧ id = c.nextRangeId) := by
  cases he with
  | register info => exact Or.inl ⟨d, hd⟩
  | heartbeat nid seen info hinfo => exact Or.inl ⟨d, hd⟩
  | create desc hspan hid hgroup hfree =>
      rw [ranges_loadRange] at hd
      split_ifs at hd with h
      · exact Or.inr (Or.inl ⟨desc, rfl, h⟩)
      · exact Or.inl ⟨d, hd⟩
  | split p key parent hparent hlo hhi =>
      rw [ranges_splitInto] at hd
      split_ifs at hd with h₁ h₂
      · exact Or.inr (Or.inr ⟨⟨p, key, rfl⟩, h₁.symm⟩)
      · exact Or.inl ⟨parent, h₂ ▸ hparent⟩
      · exact Or.inl ⟨d, hd⟩
  | merge left right l r hl hr hadj hend hrep hne =>
      rw [ranges_mergeInto] at hd
      split_ifs at hd with h₁
      · exact Or.inl ⟨l, h₁ ▸ hl⟩
      · exact Or.inl ⟨d, hd⟩
  | membership rid replicas epoch e he hepoch =>
      rw [ranges_withRange] at hd
      split_ifs at hd with h
      · exact Or.inl ⟨e, h ▸ he⟩
      · exact Or.inl ⟨d, hd⟩
  | lease rid lease e he =>
      rw [ranges_withRange] at hd
      split_ifs at hd with h
      · exact Or.inl ⟨e, h ▸ he⟩
      · exact Or.inl ⟨d, hd⟩

theorem Effect.allocated (he : Effect c cmd resp c') (ho : c.NoOverflow cmd) (ha : c.Accepts cmd)
    (h : c.Allocated) : c'.Allocated := by
  intro id d hd
  have hle := he.nextRangeId_le ho ha
  rcases he.live_cases hd with ⟨e, hlive⟩ | ⟨desc, rfl, rfl⟩ | ⟨⟨p, key, rfl⟩, rfl⟩
  · exact lt_of_lt_of_le (h id e hlive) hle
  · cases he with
    | create desc hspan hid hgroup hfree =>
        exact lt_of_lt_of_le (lt_add_one_of_ne_max (ho.create ha)) (le_max_right _ _)
  · cases he with
    | split p key parent hparent hlo hhi => exact lt_add_one_of_ne_max (ho.split ha hparent).1

/-! ### The two indexes -/

section Column

variable {κ : Type} [LinearOrder κ] {idx : OrdMap κ RangeId} {f : RangeDescriptor → κ}

/-- A split keeps an index exact when the right-hand range is new to it. -/
theorem isIndex_splitInto (h : OrdMap.IsIndex idx c.ranges f) {id : RangeId}
    {parent : RangeDescriptor} {key : Bytes} (hparent : c.ranges[id]? = some parent)
    (hfresh : c.ranges[c.nextRangeId]? = none) (hlhs : f (splitLhs parent key) = f parent)
    (hrhs : ∀ (j : RangeId) e, c.ranges[j]? = some e → f e ≠ f (c.splitRhs parent key)) :
    OrdMap.IsIndex (idx.insert (f (c.splitRhs parent key)) c.nextRangeId)
      (c.splitInto id parent key).ranges f := by
  have hl : OrdMap.IsIndex idx (c.ranges.insert id (splitLhs parent key)) f :=
    OrdMap.IsIndex.update h hparent hlhs
  have hne : id ≠ c.nextRangeId := by
    intro he
    rw [he, hfresh] at hparent
    cases hparent
  refine OrdMap.IsIndex.insert hl ?_ ?_
  · rw [OrdMap.get_insert_of_ne _ _ hne]
    exact hfresh
  · intro j e he
    rw [OrdMap.get_insert] at he
    split_ifs at he
    · rw [← Option.some.inj he, hlhs]
      exact hrhs id parent hparent
    · exact hrhs j e he

theorem isIndex_mergeInto (h : OrdMap.IsIndex idx c.ranges f) {left right : RangeId}
    {l r : RangeDescriptor} (hl : c.ranges[left]? = some l) (hr : c.ranges[right]? = some r)
    (hne : left ≠ right) (hf : f (mergedLeft l r) = f l) :
    OrdMap.IsIndex (idx.erase (f r)) (c.mergeInto left right l r).ranges f := by
  refine OrdMap.IsIndex.update (OrdMap.IsIndex.erase h hr) ?_ hf
  rw [OrdMap.get_erase_of_ne _ hne.symm]
  exact hl

end Column

theorem Effect.startExact (he : Effect c cmd resp c') (hr : c.Routed) (hid : c.SplitIdFresh cmd)
    (ha : c.Accepts cmd) (h : c.StartExact) : c'.StartExact := by
  cases he with
  | register info => exact h
  | heartbeat nid seen info hinfo => exact h
  | create desc hspan hfresh hgroup hfree =>
      exact OrdMap.IsIndex.insert h hfresh (hr.startKey_ne_of_free hspan hfree)
  | split id key parent hparent hlo hhi =>
      have hrhs := hr.startKey_ne_of_inside hparent hlo hhi
      exact isIndex_splitInto h hparent (hid ha) rfl hrhs
  | merge left right l r hl hr' hadj hend hrep hne => exact isIndex_mergeInto h hl hr' hne rfl
  | membership id replicas epoch d hd hepoch => exact OrdMap.IsIndex.update h hd rfl
  | lease id lease d hd => exact OrdMap.IsIndex.update h hd rfl

theorem Effect.groupExact (he : Effect c cmd resp c') (hid : c.SplitIdFresh cmd)
    (hg : c.SplitGroupFresh cmd) (ha : c.Accepts cmd) (h : c.GroupExact) : c'.GroupExact := by
  cases he with
  | register info => exact h
  | heartbeat nid seen info hinfo => exact h
  | create desc hspan hfresh hgroup hfree =>
      refine OrdMap.IsIndex.insert h hfresh ?_
      intro j e he hje
      -- The owner on record would be the id of the new range, which is not live.
      have howner := hgroup j ((h _ j).mpr ⟨e, he, hje⟩)
      rw [howner, hfresh] at he
      cases he
  | split id key parent hparent hlo hhi =>
      have hrhs : ∀ (j : RangeId) e, c.ranges[j]? = some e → e.raftGroupId ≠ c.nextRangeId :=
        fun j e he hn => hg ha
          (List.mem_map.mpr ⟨e, (OrdMap.mem_values _ _).mpr ⟨j, he⟩, hn⟩)
      exact isIndex_splitInto h hparent (hid ha) rfl hrhs
  | merge left right l r hl hr hadj hend hrep hne => exact isIndex_mergeInto h hl hr hne rfl
  | membership id replicas epoch d hd hepoch => exact OrdMap.IsIndex.update h hd rfl
  | lease id lease d hd => exact OrdMap.IsIndex.update h hd rfl

/-! ### Runs without overflow -/

/-- What holds of the catalog along every run without counter overflow. -/
structure Sound (c : Catalog) : Prop where
  routed : c.Routed
  startExact : c.StartExact
  allocated : c.Allocated
  counter : 1 ≤ c.nextRangeId

theorem sound_new : Sound new where
  routed := routed_new
  startExact := OrdMap.isIndex_empty _
  allocated := by simp [Allocated, new]
  counter := le_refl _

theorem Sound.step (h : c.Sound) (ho : c.NoOverflow cmd) : (c.step cmd).Sound := by
  rcases h.routed.step_cases cmd with ⟨ha, resp, _, he⟩ | ⟨_, hc⟩
  · exact ⟨he.routed h.routed,
      he.startExact h.routed (h.allocated.splitIdFresh cmd) ha h.startExact,
      he.allocated ho ha h.allocated, le_trans h.counter (he.nextRangeId_le ho ha)⟩
  · rw [hc]
    exact h

theorem sound_after {cmds : List PdCommand} (h : Run.Along step NoOverflow new cmds) :
    (after cmds).Sound :=
  h.invariant (fun _ _ hs ho => hs.step ho) sound_new

end Catalog

end AresaDb.Pd
