import AresaDb.Pd.CatalogIds

/-! # Spans, groups and ids over whole runs

The invariants that the catalog's module documentation lists, stated over every run of commands
from the empty catalog, accepted or rejected.

* Spans: along a run without counter overflow the live spans are non-empty and disjoint and the
  start-key index is exact (`spanInvariant_after`).
* Group ids: `SplitRange` takes its group id from the range-id counter and does not look it up in
  the group index, so uniqueness holds exactly along the runs in which no split meets a live
  range that already carries that group id (`groupInvariant_iff`).
* Range ids: the counter never hands out an id twice, but `CreateRange` looks at live ids only, so
  an id dissolved by a merge can come back through a creation and in no other way
  (`neverReused_iff`). -/

namespace AresaDb.Pd

open ByteOrder

namespace Catalog

variable {c : Catalog}

theorem after_concat (cmds : List PdCommand) (cmd : PdCommand) :
    after (cmds ++ [cmd]) = (after cmds).step cmd := Run.run_concat step new cmds cmd

/-! ### Spans -/

/-- Non-empty disjoint spans, ranges filed under their own id, an exact start-key index and a
counter above every live id. -/
structure SpanInvariant (c : Catalog) : Prop where
  nonEmpty : ∀ (id : RangeId) d, c.ranges[id]? = some d →
    d.hasNonEmptySpan = true ∧ d.contains d.startKey = true
  disjoint : ∀ (i j : RangeId) d e, c.ranges[i]? = some d → c.ranges[j]? = some e → i ≠ j →
    ∀ key, ¬ (d.contains key = true ∧ e.contains key = true)
  keyed : ∀ (id : RangeId) d, c.ranges[id]? = some d → d.rangeId = id
  byStart : ∀ (s : Bytes) (id : RangeId),
    c.byStart[s]? = some id ↔ ∃ d, c.ranges[id]? = some d ∧ d.startKey = s
  nextRangeId : ∀ (id : RangeId) d, c.ranges[id]? = some d → id < c.nextRangeId

theorem Sound.spanInvariant (h : c.Sound) : c.SpanInvariant where
  nonEmpty := by
    intro id d hd
    have hp := h.routed.proper hd
    exact ⟨RangeDescriptor.hasNonEmptySpan_iff.mpr hp, RangeDescriptor.contains_iff.mpr hp.lo_mem⟩
  disjoint := by
    intro i j d e hd he hij key hkey
    have hkd := RangeDescriptor.contains_iff.mp hkey.1
    have hke := RangeDescriptor.contains_iff.mp hkey.2
    exact hij (h.routed.eq_of_mem hd he hkd hke)
  keyed := h.routed.keyed
  byStart := h.startExact
  nextRangeId := h.allocated

/-- **Span invariant**: it holds after every run without counter overflow. -/
theorem spanInvariant_after (cmds : List PdCommand) (h : Run.Along step NoOverflow new cmds) :
    (after cmds).SpanInvariant := (sound_after h).spanInvariant

/-- A split, a merge that dissolves the new range, a creation that overlaps, and a second
split. -/
theorem spanInvariant_after_split_merge :
    Run.Along step NoOverflow new
        [.createRange (.new 1 [] [] []), .splitRange 1 [109], .mergeRanges 1 2,
          .createRange (.new 7 [97] [98] []), .splitRange 1 [110]] ∧
      (after [.createRange (.new 1 [] [] []), .splitRange 1 [109], .mergeRanges 1 2,
        .createRange (.new 7 [97] [98] []), .splitRange 1 [110]]).SpanInvariant := by
  have h : Run.Along step NoOverflow new
      [.createRange (.new 1 [] [] []), .splitRange 1 [109], .mergeRanges 1 2,
        .createRange (.new 7 [97] [98] []), .splitRange 1 [110]] := by decide +kernel
  exact ⟨h, spanInvariant_after _ h⟩

/-! ### Group ids -/

/-- Group ids are unique, the group index is exact, and a group id that a live range holds is
refused to any other range. -/
structure GroupInvariant (c : Catalog) : Prop where
  unique : ∀ (i j : RangeId) d e, c.ranges[i]? = some d → c.ranges[j]? = some e →
    d.raftGroupId = e.raftGroupId → i = j
  byGroup : ∀ (g : GroupId) (id : RangeId),
    c.byGroup[g]? = some id ↔ ∃ d, c.ranges[id]? = some d ∧ d.raftGroupId = g
  refused : ∀ (id : RangeId) d desc, c.ranges[id]? = some d → desc.raftGroupId = d.raftGroupId →
    desc.rangeId ≠ id → ¬ c.Accepts (.createRange desc)

theorem GroupExact.groupInvariant (h : c.GroupExact) (hr : c.Routed) : c.GroupInvariant where
  unique := fun _ _ _ _ hd he hg => OrdMap.IsIndex.injective h hd he hg
  byGroup := h
  refused := by
    intro id d desc hd hg hid ha
    have howner := (h desc.raftGroupId id).mpr ⟨d, hd, hg.symm⟩
    rcases hr.step_cases (.createRange desc) with ⟨_, resp, _, he⟩ | ⟨hna, _⟩
    · generalize c.step (.createRange desc) = c' at he
      cases he with
      | create desc hspan hfresh hgroup hfree => exact hid (hgroup id howner).symm
    · exact hna ha

theorem groupExact_new : GroupExact new := OrdMap.isIndex_empty _

theorem Sound.groupExact_step (h : c.Sound) {cmd : PdCommand} (hg : c.SplitGroupFresh cmd)
    (hx : c.GroupExact) : (c.step cmd).GroupExact := by
  rcases h.routed.step_cases cmd with ⟨ha, resp, _, he⟩ | ⟨_, hc⟩
  · exact he.groupExact (h.allocated.splitIdFresh cmd) hg ha hx
  · rw [hc]
    exact hx

/-- Along a run without overflow whose splits allocate fresh group ids, both indexes stay exact. -/
theorem sound_groupExact_after {cmds : List PdCommand}
    (h : Run.Along step (fun c cmd => NoOverflow c cmd ∧ SplitGroupFresh c cmd) new cmds) :
    (after cmds).Sound ∧ (after cmds).GroupExact := by
  have hstep : ∀ (c : Catalog) (cmd : PdCommand), c.Sound ∧ c.GroupExact →
      c.NoOverflow cmd ∧ c.SplitGroupFresh cmd → (c.step cmd).Sound ∧ (c.step cmd).GroupExact :=
    fun _ _ hs hcmd => ⟨hs.1.step hcmd.1, hs.1.groupExact_step hcmd.2 hs.2⟩
  exact h.invariant hstep ⟨sound_new, groupExact_new⟩

/-- A split that meets its own group id leaves two live ranges with it. -/
theorem Sound.splitGroupFresh_of_unique (h : c.Sound) {cmd : PdCommand}
    (hu : (c.step cmd).GroupInvariant) : c.SplitGroupFresh cmd := by
  cases cmd with
  | splitRange id key =>
      intro ha hmem
      obtain ⟨d, hd, hgroup⟩ := List.mem_map.mp hmem
      obtain ⟨j, hj⟩ := (OrdMap.mem_values _ _).mp hd
      have hfresh := h.allocated.fresh
      have hjne : c.nextRangeId ≠ j := by
        intro he
        rw [← he, hfresh] at hj
        cases hj
      rcases h.routed.step_cases (.splitRange id key) with ⟨_, resp, _, he⟩ | ⟨hna, _⟩
      · generalize c.step (.splitRange id key) = c' at he hu
        cases he with
        | split id key parent hparent hlo hhi =>
            have hnew : (c.splitInto id parent key).ranges[c.nextRangeId]? =
                some (c.splitRhs parent key) := by rw [ranges_splitInto, if_pos rfl]
            by_cases hjid : id = j
            · subst hjid
              rw [hparent] at hj
              obtain rfl := Option.some.inj hj
              have hold : (c.splitInto id parent key).ranges[id]? =
                  some (splitLhs parent key) := by
                rw [ranges_splitInto, if_neg hjne, if_pos rfl]
              exact hjne (hu.unique _ _ _ _ hnew hold hgroup.symm)
            · have hold : (c.splitInto id parent key).ranges[j]? = some d := by
                rw [ranges_splitInto, if_neg hjne, if_neg hjid, hj]
              exact hjne (hu.unique _ _ _ _ hnew hold hgroup.symm)
      · exact hna ha
  | _ => trivial

/-- **Group ids**: along a run without counter overflow they stay unique and indexed if and only
if no accepted split runs while its group id, the next range id, belongs to a live range. -/
theorem groupInvariant_iff (cmds : List PdCommand) (ho : Run.Along step NoOverflow new cmds) :
    (∀ p, p <+: cmds → (after p).GroupInvariant) ↔ Run.Along step SplitGroupFresh new cmds := by
  constructor
  · intro h
    rw [Run.along_iff]
    intro before cmd rest hcmds
    have hp : before ++ [cmd] <+: cmds := ⟨rest, by rw [hcmds]; simp⟩
    have hbefore := ho.upto ((List.prefix_append before [cmd]).trans hp)
    have hinv := h _ hp
    rw [after_concat] at hinv
    exact (sound_after hbefore).splitGroupFresh_of_unique hinv
  · intro h p hp
    have hinv := sound_groupExact_after ((ho.upto hp).and (h.upto hp))
    exact hinv.2.groupInvariant hinv.1.routed

/-- The client may name a group id of its own as long as the counter has not reached it. -/
theorem groupInvariant_client_group :
    Run.Along step NoOverflow new
        [.createRange { RangeDescriptor.new 1 [] [] [] with raftGroupId := 9 },
          .splitRange 1 [109], .mergeRanges 1 2, .splitRange 1 [110]] ∧
      ∀ p, p <+: [.createRange { RangeDescriptor.new 1 [] [] [] with raftGroupId := 9 },
        .splitRange 1 [109], .mergeRanges 1 2, .splitRange 1 [110]] → (after p).GroupInvariant := by
  have h : Run.Along step NoOverflow new
      [.createRange { RangeDescriptor.new 1 [] [] [] with raftGroupId := 9 },
        .splitRange 1 [109], .mergeRanges 1 2, .splitRange 1 [110]] := by decide +kernel
  exact ⟨h, (groupInvariant_iff _ h).mpr (by decide +kernel)⟩

/-- Range 1 is created with group id 2; its first split allocates range 2 with group id 2. -/
theorem not_groupInvariant_split :
    Run.Along step NoOverflow new
        [.createRange { RangeDescriptor.new 1 [] [] [] with raftGroupId := 2 },
          .splitRange 1 [109]] ∧
      ¬ (after [.createRange { RangeDescriptor.new 1 [] [] [] with raftGroupId := 2 },
        .splitRange 1 [109]]).GroupInvariant := by
  refine ⟨by decide +kernel, ?_⟩
  intro h
  have hne : (1 : RangeId) ≠ 2 := by decide
  exact hne (h.unique 1 2
    { RangeDescriptor.new 1 [] [109] [] with raftGroupId := 2, generation := 1 }
    { RangeDescriptor.new 2 [109] [] [] with generation := 1 } (by decide +kernel)
    (by decide +kernel) rfl)

/-! ### Range ids -/

/-- The id that an accepted merge dissolves. -/
def dissolved (c : Catalog) : PdCommand → Option RangeId
  | .mergeRanges left right => if c.Accepts (.mergeRanges left right) then some right else none
  | _ => none

/-- The ids dissolved along a run, oldest first. -/
def retired (c : Catalog) : List PdCommand → List RangeId
  | [] => []
  | cmd :: cmds => (c.dissolved cmd).toList ++ retired (c.step cmd) cmds

theorem retired_concat (c : Catalog) (cmds : List PdCommand) (cmd : PdCommand) :
    retired c (cmds ++ [cmd]) = retired c cmds ++ ((Run.run step c cmds).dissolved cmd).toList := by
  induction cmds generalizing c with
  | nil => simp [retired]
  | cons x cmds ih => simp only [List.cons_append, retired, ih, Run.run_cons, List.append_assoc]

/-- A dissolved id was live before the merge and is not live after it. -/
theorem Sound.dissolved_not_live (h : c.Sound) {cmd : PdCommand} {id : RangeId}
    (hid : c.dissolved cmd = some id) :
    (c.step cmd).ranges[id]? = none ∧ id < c.nextRangeId := by
  cases cmd with
  | mergeRanges left right =>
      simp only [dissolved] at hid
      split_ifs at hid with ha
      obtain rfl := Option.some.inj hid
      rcases h.routed.step_cases (.mergeRanges left right) with ⟨_, resp, _, he⟩ | ⟨hna, _⟩
      · generalize c.step (.mergeRanges left right) = c' at he
        cases he with
        | merge left right l r hl hr hadj hend hrep hne =>
            refine ⟨?_, h.allocated right r hr⟩
            rw [ranges_mergeInto, if_neg hne, if_pos rfl]
      · exact absurd ha hna
  | _ => cases hid

/-- An id that is not live and below the counter comes back only through a creation. -/
theorem Sound.stays_dissolved (h : c.Sound) {cmd : PdCommand} (ho : c.NoOverflow cmd) {id : RangeId}
    (hdead : c.ranges[id]? = none) (hlt : id < c.nextRangeId)
    (hcreate : ∀ desc, cmd = .createRange desc → c.Accepts cmd → desc.rangeId ≠ id) :
    (c.step cmd).ranges[id]? = none ∧ id < (c.step cmd).nextRangeId := by
  rcases h.routed.step_cases cmd with ⟨ha, resp, _, he⟩ | ⟨_, hc⟩
  · refine ⟨?_, lt_of_lt_of_le hlt (he.nextRangeId_le ho ha)⟩
    cases hlive : (c.step cmd).ranges[id]? with
    | none => rfl
    | some d =>
        rcases he.live_cases hlive with ⟨e, hbefore⟩ | ⟨desc, hcmd, hid⟩ | ⟨_, hid⟩
        · rw [hdead] at hbefore
          cases hbefore
        · exact absurd hid (hcreate desc hcmd ha)
        · exact absurd hid (ne_of_lt hlt)
  · rw [hc]
    exact ⟨hdead, hlt⟩

/-- Along a run whose creations avoid dissolved ids, every dissolved id stays dead and below the
counter. -/
theorem retired_not_live (cmds : List PdCommand) (ho : Run.Along step NoOverflow new cmds)
    (hcreate : ∀ p desc, p ++ [.createRange desc] <+: cmds →
      (after p).Accepts (.createRange desc) → desc.rangeId ∉ retired new p) :
    ∀ id ∈ retired new cmds, (after cmds).ranges[id]? = none ∧ id < (after cmds).nextRangeId := by
  induction cmds using List.reverseRecOn with
  | nil =>
      intro id hid
      simp [retired] at hid
  | append_singleton cmds cmd ih =>
      have hpre : cmds <+: cmds ++ [cmd] := List.prefix_append _ _
      have hsound := sound_after (ho.upto hpre)
      have hstep := (Run.along_concat.mp ho).2
      intro id hid
      rw [retired_concat, List.mem_append] at hid
      rw [after_concat]
      rcases hid with hid | hid
      · obtain ⟨hdead, hlt⟩ := ih (ho.upto hpre)
          (fun p desc hp => hcreate p desc (hp.trans hpre)) id hid
        refine hsound.stays_dissolved hstep hdead hlt ?_
        intro desc hcmd ha heq
        rw [hcmd] at ha
        refine hcreate cmds desc (by rw [hcmd]) ha ?_
        rw [heq]
        exact hid
      · have hdis : (after cmds).dissolved cmd = some id := Option.mem_toList.mp hid
        obtain ⟨hdead, hlt⟩ := hsound.dissolved_not_live hdis
        refine ⟨hdead, ?_⟩
        rcases hsound.routed.step_cases cmd with ⟨ha, resp, _, he⟩ | ⟨_, hc⟩
        · exact lt_of_lt_of_le hlt (he.nextRangeId_le hstep ha)
        · rw [hc]
          exact hlt

/-- **Range ids**: along a run without counter overflow a dissolved id never becomes live again if
and only if no accepted creation names an id that an earlier merge dissolved. -/
theorem neverReused_iff (cmds : List PdCommand) (ho : Run.Along step NoOverflow new cmds) :
    (∀ p, p <+: cmds → ∀ id ∈ retired new p, (after p).ranges[id]? = none) ↔
      ∀ p desc, p ++ [.createRange desc] <+: cmds → (after p).Accepts (.createRange desc) →
        desc.rangeId ∉ retired new p := by
  constructor
  · intro h p desc hp ha hmem
    have hdead := h _ hp desc.rangeId (by rw [retired_concat]; simp [hmem])
    rw [after_concat] at hdead
    rcases (routed_after p).step_cases (.createRange desc) with ⟨_, resp, _, he⟩ | ⟨hna, _⟩
    · generalize (after p).step (.createRange desc) = c' at he hdead
      cases he with
      | create desc hspan hfresh hgroup hfree =>
          rw [ranges_loadRange, if_pos rfl] at hdead
          cases hdead
    · exact hna ha
  · intro h p hp id hid
    have hcreate := fun q desc (hq : q ++ [PdCommand.createRange desc] <+: p) =>
      h q desc (hq.trans hp)
    exact (retired_not_live p (ho.upto hp) hcreate id hid).1

/-- Splits never bring an id back: the second split allocates 3, not the dissolved 2. -/
theorem neverReused_split_again :
    Run.Along step NoOverflow new
        [.createRange (.new 1 [] [] []), .splitRange 1 [109], .mergeRanges 1 2,
          .splitRange 1 [109]] ∧
      ∀ p, p <+: [.createRange (.new 1 [] [] []), .splitRange 1 [109], .mergeRanges 1 2,
        .splitRange 1 [109]] → ∀ id ∈ retired new p, (after p).ranges[id]? = none := by
  have h : Run.Along step NoOverflow new
      [.createRange (.new 1 [] [] []), .splitRange 1 [109], .mergeRanges 1 2,
        .splitRange 1 [109]] := by decide +kernel
  refine ⟨h, (neverReused_iff _ h).mpr ?_⟩
  intro p desc hp
  -- The only creation of the run is its first command, and nothing is dissolved before it.
  have hnil : p = [] := by
    match p, hp with
    | [], _ => rfl
    | [_], hp => simp at hp
    | [_, _], hp => simp at hp
    | [_, _, _], hp => simp at hp
    | _ :: _ :: _ :: _ :: _, hp => simp at hp
  rw [hnil]
  simp [retired]

/-- Range 2, dissolved by a merge, is created again. -/
theorem reused_by_create :
    Run.Along step NoOverflow new
        [.createRange (.new 1 [97] [122] []), .splitRange 1 [109], .mergeRanges 1 2,
          .createRange (.new 2 [122] [] [])] ∧
      2 ∈ retired new [.createRange (.new 1 [97] [122] []), .splitRange 1 [109],
        .mergeRanges 1 2] ∧
      (after [.createRange (.new 1 [97] [122] []), .splitRange 1 [109], .mergeRanges 1 2,
        .createRange (.new 2 [122] [] [])]).ranges[(2 : RangeId)]? =
          some (.new 2 [122] [] []) := by
  refine ⟨by decide +kernel, by decide +kernel, by decide +kernel⟩

end Catalog

end AresaDb.Pd
