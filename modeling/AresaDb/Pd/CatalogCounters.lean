import AresaDb.Pd.CatalogLoad

/-! # Counters

Range ids, group ids and generations are client data that the catalog increments: `create_range`
moves the id counter past the id it is given, `split_range` takes the counter as a new id and bumps
a generation, `merge_ranges` bumps one, and `load` moves the counter past every id again.  Nothing
bounds the client data, so each of the increments can overflow, and then the counter is no longer
above the live ids or a generation starts again at zero.

`Within` says of a command that it does not meet such a word.  Along a run the counters are exact
if and only if every step is within bounds (`counters_exact_iff`), and they are when clients leave
as much room below the largest word as there are commands (`within_of_room`). -/

namespace AresaDb.Pd

open ByteOrder

namespace Catalog

variable {c c' : Catalog} {cmd : PdCommand} {resp : PdResponse}

/-! ### Exact counters -/

/-- The generations that a command bumps grow. -/
def Bumped (c : Catalog) : PdCommand → Prop
  | .splitRange id key => c.Accepts (.splitRange id key) →
      ∀ parent, c.ranges[id]? = some parent → ∀ (i : RangeId) d, i = id ∨ i = c.nextRangeId →
        (c.step (.splitRange id key)).ranges[i]? = some d → parent.generation < d.generation
  | .mergeRanges left right => c.Accepts (.mergeRanges left right) →
      ∀ l r d, c.ranges[left]? = some l → c.ranges[right]? = some r →
        (c.step (.mergeRanges left right)).ranges[left]? = some d →
          l.generation < d.generation ∧ r.generation < d.generation
  | _ => True

/-- The rows of the catalog are loaded without overflow, to a counter above their ids. -/
def Reloads (c : Catalog) : Prop :=
  ∀ l ns hint, OrdMap.Lists l c.ranges →
    (∀ d ∈ l, d.rangeId ≠ u64Max) ∧ (load l ns hint).Allocated

/-- A command overflows nowhere, leaves the counter above every live id, lets the generations it
bumps grow, and leaves rows that can be loaded. -/
structure CountersExact (c : Catalog) (cmd : PdCommand) : Prop where
  noOverflow : c.NoOverflow cmd
  allocated : (c.step cmd).Allocated
  bumped : c.Bumped cmd
  reloads : (c.step cmd).Reloads

/-- A command does not meet the largest word: as the id of an accepted creation, as the next id of
an accepted split, or as the generation of a range that is split or merged. -/
def Within (c : Catalog) (cmd : PdCommand) : Prop :=
  c.Accepts cmd →
    match cmd with
    | .createRange desc => desc.rangeId ≠ u64Max
    | .splitRange id _ => c.nextRangeId ≠ u64Max ∧
        ∀ parent, c.ranges[id]? = some parent → parent.generation ≠ u64Max
    | .mergeRanges left right =>
        (∀ l, c.ranges[left]? = some l → l.generation ≠ u64Max) ∧
          ∀ r, c.ranges[right]? = some r → r.generation ≠ u64Max
    | _ => True

theorem le_u64Max (n : UInt64) : n ≤ u64Max := by
  unfold u64Max
  grind

theorem max_ne_u64Max {a b : UInt64} : max a b ≠ u64Max ↔ a ≠ u64Max ∧ b ≠ u64Max := by
  rw [← not_or, not_iff_not]
  constructor
  · intro h
    rcases max_choice a b with hmax | hmax
    · exact .inl (hmax.symm.trans h)
    · exact .inr (hmax.symm.trans h)
  · rintro (rfl | rfl)
    · exact max_eq_left (le_u64Max b)
    · exact max_eq_right (le_u64Max a)

theorem ne_u64Max_of_lt {m n : UInt64} (h : m < n) : m ≠ u64Max := by
  rintro rfl
  exact absurd h (not_lt.mpr (le_u64Max n))

theorem Within.noOverflow (h : c.Within cmd) : c.NoOverflow cmd := by
  unfold NoOverflow increments
  split_ifs with ha
  · have h := h ha
    cases cmd with
    | createRange desc =>
        rw [List.mem_singleton]
        exact fun heq => h heq.symm
    | splitRange id key =>
        obtain ⟨hid, hgen⟩ := h
        rw [List.mem_cons, not_or, List.mem_map]
        refine ⟨fun heq => hid heq.symm, ?_⟩
        rintro ⟨parent, hparent, heq⟩
        exact hgen parent (Option.mem_toList.mp hparent) heq
    | mergeRanges left right =>
        obtain ⟨hl, hr⟩ := h
        dsimp only
        split
        · rename_i l r hleft hright
          rw [List.mem_singleton]
          exact fun heq => max_ne_u64Max.mpr ⟨hl l hleft, hr r hright⟩ heq.symm
        · exact List.not_mem_nil
    | _ => exact List.not_mem_nil
  · exact List.not_mem_nil

/-! ### Steps within bounds -/

theorem Effect.bumped (he : Effect c cmd resp (c.step cmd)) (ho : c.NoOverflow cmd) :
    c.Bumped cmd := by
  cases cmd with
  | splitRange id key =>
      intro ha parent hparent i d hi hd
      have hgrows := lt_add_one_of_ne_max (ho.split ha hparent).2
      generalize c.step (.splitRange id key) = c' at he hd
      cases he with
      | split id key parent' hparent' hlo hhi =>
          rw [hparent] at hparent'
          obtain rfl := Option.some.inj hparent'
          rw [ranges_splitInto] at hd
          split_ifs at hd with h₁ h₂
          · rw [← Option.some.inj hd]
            exact hgrows
          · rw [← Option.some.inj hd]
            exact hgrows
          · exact (hi.elim (fun heq => h₂ heq.symm) fun heq => h₁ heq.symm).elim
  | mergeRanges left right =>
      intro ha l r d hl hr hd
      have hgrows := lt_add_one_of_ne_max (ho.merge ha hl hr)
      generalize c.step (.mergeRanges left right) = c' at he hd
      cases he with
      | merge left right l' r' hl' hr' hadj hend hrep hne =>
          rw [hl] at hl'
          rw [hr] at hr'
          obtain rfl := Option.some.inj hl'
          obtain rfl := Option.some.inj hr'
          rw [ranges_mergeInto, if_pos rfl] at hd
          rw [← Option.some.inj hd]
          exact ⟨lt_of_le_of_lt (le_max_left _ _) hgrows, lt_of_le_of_lt (le_max_right _ _) hgrows⟩
  | _ => trivial

theorem Sound.reloads (h : c.Sound) : c.Reloads := by
  intro l ns hint hl
  have hrow : ∀ d ∈ l, d.rangeId < c.nextRangeId := by
    intro d hd
    obtain ⟨id, hid⟩ := (hl d).mp hd
    rw [h.routed.keyed id d hid]
    exact h.allocated id d hid
  refine ⟨fun d hd => ne_u64Max_of_lt (hrow d hd), ?_⟩
  intro id d hd
  rw [load_ranges h.routed hl] at hd
  have hmem : d ∈ l := (hl d).mpr ⟨id, hd⟩
  have hid : d.rangeId = id := h.routed.keyed id d hd
  rw [load_fields, ← hid]
  have hpast : d.rangeId + 1 ≤ l.foldl (fun n d => max n (d.rangeId + 1)) 1 :=
    ((foldl_max_le_iff (f := fun d : RangeDescriptor => d.rangeId + 1) (a := 1)).mp
      (le_refl _)).2 d hmem
  have hlt := lt_add_one_of_ne_max (ne_u64Max_of_lt (hrow d hmem))
  exact lt_of_lt_of_le hlt (hpast.trans (le_max_left _ _))

theorem Sound.countersExact (h : c.Sound) (hw : c.Within cmd) : c.CountersExact cmd := by
  have ho := hw.noOverflow
  have hstep := h.step ho
  refine ⟨ho, hstep.allocated, ?_, hstep.reloads⟩
  rcases h.routed.step_cases cmd with ⟨-, resp, -, he⟩ | ⟨hno, -⟩
  · exact he.bumped ho
  · cases cmd with
    | splitRange id key => exact fun ha => absurd ha hno
    | mergeRanges left right => exact fun ha => absurd ha hno
    | _ => trivial

/-- A step that is exact is within bounds: the new state shows each of the three overflows. -/
theorem CountersExact.within (h : c.CountersExact cmd) (hr : c.Routed) : c.Within cmd := by
  intro ha
  have hallocated := h.allocated
  have hbumped := h.bumped
  rcases hr.step_cases cmd with ⟨-, resp, -, he⟩ | ⟨hno, -⟩
  · cases cmd with
    | createRange desc =>
        generalize c.step (.createRange desc) = c' at he hallocated
        cases he with
        | create desc hspan hid hgroup hfree =>
            exact ne_u64Max_of_lt (hallocated desc.rangeId desc
              (by rw [ranges_loadRange, if_pos rfl]))
    | splitRange id key =>
        have hbumped := hbumped ha
        generalize c.step (.splitRange id key) = c' at he hallocated hbumped
        cases he with
        | split id key parent hparent hlo hhi =>
            have hrhs : (c.splitInto id parent key).ranges[c.nextRangeId]? =
                some (c.splitRhs parent key) := by rw [ranges_splitInto, if_pos rfl]
            refine ⟨ne_u64Max_of_lt (hallocated _ _ hrhs), fun parent' hparent' => ?_⟩
            exact ne_u64Max_of_lt (hbumped parent' hparent' _ _ (.inr rfl) hrhs)
    | mergeRanges left right =>
        have hbumped := hbumped ha
        generalize c.step (.mergeRanges left right) = c' at he hbumped
        cases he with
        | merge left right l r hl hr' hadj hend hrep hne =>
            have hleft : (c.mergeInto left right l r).ranges[left]? = some (mergedLeft l r) := by
              rw [ranges_mergeInto, if_pos rfl]
            refine ⟨fun l' hl' => ?_, fun r'' hr'' => ?_⟩
            · exact ne_u64Max_of_lt (hbumped l' r _ hl' hr' hleft).1
            · exact ne_u64Max_of_lt (hbumped l r'' _ hl hr'' hleft).2
    | _ => trivial
  · exact absurd ha hno

/-- **Counters**: they are exact at every step of a run if and only if every step of the run is
within bounds. -/
theorem counters_exact_iff (cmds : List PdCommand) :
    (∀ p cmd, p ++ [cmd] <+: cmds → (after p).CountersExact cmd) ↔
        Run.Along step Within new cmds := by
  constructor
  · intro h
    induction cmds using List.reverseRecOn with
    | nil => trivial
    | append_singleton cmds cmd ih =>
        have hpre := ih fun p cmd' hp => h p cmd' (hp.trans (List.prefix_append _ _))
        have hsound := sound_after (hpre.imp fun _ _ => Within.noOverflow)
        refine Run.along_concat.mpr ⟨hpre, ?_⟩
        exact (h cmds cmd (List.prefix_refl _)).within hsound.routed
  · intro h p cmd hp
    obtain ⟨hbefore, hw⟩ := Run.along_concat.mp (h.upto hp)
    have hsound := sound_after (hbefore.imp fun _ _ => Within.noOverflow)
    exact hsound.countersExact hw

/-- A range may be created with the largest id; the counter stays below it. -/
theorem largest_id_created :
    ¬ ∀ p cmd, p ++ [cmd] <+: [.createRange (.new u64Max [] [] [])] →
      (after p).CountersExact cmd := by
  intro h
  have hexact := h [] _ (List.prefix_refl _)
  exact hexact.within routed_new (by decide +kernel) rfl

/-! ### Room for the commands -/

/-- The next id and every generation are at most `n`. -/
structure AtMost (n : ℕ) (c : Catalog) : Prop where
  nextId : c.nextRangeId.toNat ≤ n
  generation : ∀ (id : RangeId) d, c.ranges[id]? = some d → d.generation.toNat ≤ n

/-- The words that a creation brings in are at most `n`, its id strictly. -/
def Brings (n : ℕ) (cmd : PdCommand) : Prop :=
  ∀ desc, cmd = .createRange desc → desc.rangeId.toNat < n ∧ desc.generation.toNat ≤ n

theorem toNat_max_le {a b : UInt64} {n : ℕ} (ha : a.toNat ≤ n) (hb : b.toNat ≤ n) :
    (max a b).toNat ≤ n := by
  rcases max_choice a b with h | h
  · rw [h]
    exact ha
  · rw [h]
    exact hb

theorem toNat_add_one_le {a : UInt64} {n : ℕ} (h : a.toNat ≤ n) : (a + 1).toNat ≤ n + 1 := by
  rw [UInt64.toNat_add]
  exact (Nat.mod_le _ _).trans (Nat.add_le_add_right h 1)

theorem ne_u64Max_of_toNat_le {a : UInt64} {n : ℕ} (h : a.toNat ≤ n) (hn : n + 1 < 2 ^ 64) :
    a ≠ u64Max := by
  rintro rfl
  have hmax : u64Max.toNat = 2 ^ 64 - 1 := rfl
  omega

variable {n : ℕ}

theorem Effect.atMost (he : Effect c cmd resp c') (h : c.AtMost n) (hb : Brings n cmd) :
    c'.AtMost (n + 1) := by
  have hid : c.nextRangeId.toNat ≤ n + 1 := Nat.le_succ_of_le h.nextId
  have hgen : ∀ (id : RangeId) d, c.ranges[id]? = some d → d.generation.toNat ≤ n + 1 :=
    fun id d hd => Nat.le_succ_of_le (h.generation id d hd)
  cases he with
  | register info => exact ⟨hid, hgen⟩
  | heartbeat nid seen info hinfo => exact ⟨hid, hgen⟩
  | create desc hspan hnew hgroup hfree =>
      obtain ⟨hdesc, hdgen⟩ := hb desc rfl
      refine ⟨toNat_max_le hid (toNat_add_one_le (le_of_lt hdesc)), fun id d hd => ?_⟩
      rw [ranges_loadRange] at hd
      split_ifs at hd
      · rw [← Option.some.inj hd]
        exact Nat.le_succ_of_le hdgen
      · exact hgen id d hd
  | split p key parent hparent hlo hhi =>
      refine ⟨toNat_add_one_le h.nextId, fun id d hd => ?_⟩
      have hbump := toNat_add_one_le (h.generation p parent hparent)
      rw [ranges_splitInto] at hd
      split_ifs at hd
      · rw [← Option.some.inj hd]
        exact hbump
      · rw [← Option.some.inj hd]
        exact hbump
      · exact hgen id d hd
  | merge left right l r hl hr hadj hend hrep hne =>
      refine ⟨hid, fun id d hd => ?_⟩
      have hbump := toNat_add_one_le
        (toNat_max_le (h.generation left l hl) (h.generation right r hr))
      rw [ranges_mergeInto] at hd
      split_ifs at hd
      · rw [← Option.some.inj hd]
        exact hbump
      · exact hgen id d hd
  | membership rid replicas epoch e he hepoch =>
      refine ⟨hid, fun id d hd => ?_⟩
      rw [ranges_withRange] at hd
      split_ifs at hd
      · rw [← Option.some.inj hd]
        exact hgen rid e he
      · exact hgen id d hd
  | lease rid lease e he =>
      refine ⟨hid, fun id d hd => ?_⟩
      rw [ranges_withRange] at hd
      split_ifs at hd
      · rw [← Option.some.inj hd]
        exact hgen rid e he
      · exact hgen id d hd

theorem AtMost.step (h : c.AtMost n) (hr : c.Routed) (hb : Brings n cmd) :
    (c.step cmd).AtMost (n + 1) := by
  rcases hr.step_cases cmd with ⟨-, resp, -, he⟩ | ⟨-, hc⟩
  · exact he.atMost h hb
  · rw [hc]
    exact ⟨Nat.le_succ_of_le h.nextId, fun id d hd => Nat.le_succ_of_le (h.generation id d hd)⟩

theorem AtMost.within (h : c.AtMost n) (hb : Brings n cmd) (hn : n + 1 < 2 ^ 64) :
    c.Within cmd := by
  intro _
  have hgen : ∀ (id : RangeId) d, c.ranges[id]? = some d → d.generation ≠ u64Max :=
    fun id d hd => ne_u64Max_of_toNat_le (h.generation id d hd) hn
  cases cmd with
  | createRange desc => exact ne_u64Max_of_toNat_le (le_of_lt (hb desc rfl).1) hn
  | splitRange id key => exact ⟨ne_u64Max_of_toNat_le h.nextId hn, hgen id⟩
  | mergeRanges left right => exact ⟨hgen left, hgen right⟩
  | _ => trivial

/-- A run is within bounds when its creations leave as much room below the largest word as the run
has commands. -/
theorem within_of_room (hn : 1 ≤ n) (cmds : List PdCommand) (hb : ∀ cmd ∈ cmds, Brings n cmd)
    (hroom : n + cmds.length < 2 ^ 64) : Run.Along step Within new cmds := by
  have hrun : Run.Along step Within new cmds ∧ (after cmds).AtMost (n + cmds.length) := by
    induction cmds using List.reverseRecOn with
    | nil => exact ⟨trivial, hn, fun id d hd => by simp [after, new] at hd⟩
    | append_singleton cmds cmd ih =>
        rw [List.length_append, List.length_singleton, ← Nat.add_assoc] at hroom ⊢
        obtain ⟨hpre, hmost⟩ := ih (fun x hx => hb x (List.mem_append_left _ hx))
          (Nat.lt_of_succ_lt hroom)
        have hcmd : Brings (n + cmds.length) cmd := by
          intro desc hdesc
          obtain ⟨hid, hgen⟩ := hb cmd (List.mem_append_right _ (List.mem_singleton.mpr rfl))
            desc hdesc
          exact ⟨Nat.lt_add_right _ hid, Nat.le_add_right_of_le hgen⟩
        refine ⟨Run.along_concat.mpr ⟨hpre, hmost.within hcmd hroom⟩, ?_⟩
        rw [after, Run.run_concat]
        exact hmost.step (routed_after cmds) hcmd
  exact hrun.1

end Catalog

end AresaDb.Pd
