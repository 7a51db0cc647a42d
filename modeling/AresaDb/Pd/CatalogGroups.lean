import AresaDb.Pd.CatalogOwners

/-! # The group id of a range

No command changes the group id of a live range, so a range id stands for one Raft group as long as
it is not dissolved by a merge and created again. -/

namespace AresaDb.Pd

namespace Catalog

variable {c c' : Catalog} {cmd : PdCommand} {resp : PdResponse}

/-- Only a merge takes a range out of the catalog. -/
theorem Effect.lost (he : Effect c cmd resp c') {id : RangeId} {d : RangeDescriptor}
    (hd : c.ranges[id]? = some d) (hnone : c'.ranges[id]? = none) :
    ∃ left, cmd = .mergeRanges left id := by
  have hne : c'.ranges[id]? ≠ some d := by
    rw [hnone]
    exact (Option.some_ne_none d).symm
  cases he with
  | register info => exact absurd hd hne
  | heartbeat nid seen info hinfo => exact absurd hd hne
  | create desc hspan hid hgroup hfree =>
      rw [ranges_loadRange] at hnone
      split_ifs at hnone
      rw [hd] at hnone
      cases hnone
  | split p key parent hparent hlo hhi =>
      rw [ranges_splitInto] at hnone
      split_ifs at hnone
      rw [hd] at hnone
      cases hnone
  | merge left right l r hl hr hadj hend hrep hlr =>
      rw [ranges_mergeInto] at hnone
      split_ifs at hnone with hleft hright
      · exact ⟨left, by rw [hright]⟩
      · rw [hd] at hnone
        cases hnone
  | membership rid replicas epoch e he hepoch =>
      rw [ranges_withRange] at hnone
      split_ifs at hnone
      rw [hd] at hnone
      cases hnone
  | lease rid lease e he =>
      rw [ranges_withRange] at hnone
      split_ifs at hnone
      rw [hd] at hnone
      cases hnone

/-- A command keeps the group id of a live range, or dissolves the range. -/
theorem Sound.group_step (h : c.Sound) {id : RangeId} {d : RangeDescriptor}
    (hd : c.ranges[id]? = some d) (cmd : PdCommand) :
    (∃ e, (c.step cmd).ranges[id]? = some e ∧ e.raftGroupId = d.raftGroupId) ∨
      c.dissolved cmd = some id := by
  rcases h.routed.step_cases cmd with ⟨ha, resp, -, he⟩ | ⟨-, hc⟩
  · cases hlive : (c.step cmd).ranges[id]? with
    | none =>
        obtain ⟨left, rfl⟩ := he.lost hd hlive
        exact Or.inr (if_pos ha)
    | some e =>
        refine Or.inl ⟨e, rfl, ?_⟩
        rcases he.descriptor_cases (h.allocated.splitIdFresh cmd) ha hd hlive with
          rfl | ⟨key, -, rfl⟩ | ⟨right, r, -, -, rfl⟩ | ⟨replicas, epoch, -, rfl⟩ | ⟨lease, rfl⟩
        all_goals rfl
  · rw [hc]
    exact Or.inl ⟨d, hd, rfl⟩

/-- No accepted creation names an id that an earlier merge dissolved. -/
def NoReuse (cmds : List PdCommand) : Prop :=
  ∀ p desc, p ++ [.createRange desc] <+: cmds → (after p).Accepts (.createRange desc) →
    desc.rangeId ∉ retired new p

/-- **One group for each range**: as long as no dissolved id is created again, a range id has the
same group id at all times. -/
theorem group_kept {cmds : List PdCommand} (ho : Run.Along step NoOverflow new cmds)
    (hreuse : NoReuse cmds) {p : List PdCommand} (hp : p <+: cmds) {id : RangeId}
    {d d' : RangeDescriptor} (hd : (after p).ranges[id]? = some d)
    (hd' : (after cmds).ranges[id]? = some d') : d.raftGroupId = d'.raftGroupId := by
  obtain ⟨later, rfl⟩ := hp
  have hkept : ∀ q, q <+: later →
      (∃ e, (after (p ++ q)).ranges[id]? = some e ∧ e.raftGroupId = d.raftGroupId) ∨
        id ∈ retired new (p ++ q) := by
    intro q
    induction q using List.reverseRecOn with
    | nil =>
        intro _
        rw [List.append_nil]
        exact Or.inl ⟨d, hd, rfl⟩
    | append_singleton q cmd ih =>
        intro hq
        have hpre : q <+: later := (List.prefix_append q [cmd]).trans hq
        have hsound : (after (p ++ q)).Sound :=
          sound_after (ho.upto (List.prefix_append_right_inj p |>.mpr hpre))
        rw [← List.append_assoc, after_concat, retired_concat, List.mem_append]
        rcases ih hpre with ⟨e, he, hgroup⟩ | hretired
        · rcases hsound.group_step he cmd with ⟨e', he', hgroup'⟩ | hgone
          · exact Or.inl ⟨e', he', hgroup'.trans hgroup⟩
          · exact Or.inr (Or.inr (Option.mem_toList.mpr hgone))
        · exact Or.inr (Or.inl hretired)
  rcases hkept later (List.prefix_refl later) with ⟨e, he, hgroup⟩ | hretired
  · rw [hd'] at he
    rw [← hgroup, Option.some.inj he]
  · have hdead := (retired_not_live (p ++ later) ho hreuse id hretired).1
    rw [hd'] at hdead
    cases hdead

end Catalog

end AresaDb.Pd
