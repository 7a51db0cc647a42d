import AresaDb.Cluster.Directory

/-! # Reconciliation with the placement driver

`plan_reconcile` and `execute_plan` of `aresadb-cluster/src/pd_supervisor`: on every tick a node
compares the ranges that the placement driver assigns to it with the ones it runs, opens what is
missing and closes what is no longer assigned.  Ranges of the skip set are left alone.

The executor opens before it closes, so an open may be refused because a range about to be closed
still holds its group id.  The first tick closes everything that has to go (`tick_clean`), and on a
directory without such ranges a tick opens everything that is missing (`tick_opens`): two ticks are
enough. -/

namespace AresaDb.Cluster

open AresaDb.Pd (RangeId GroupId NodeId RangeDescriptor)

/-! ### Planning -/

structure ReconcilePlan where
  toAdd : List RangeDescriptor
  toRemove : List RangeId
deriving DecidableEq, Repr

def ReconcilePlan.isEmpty (plan : ReconcilePlan) : Bool :=
  plan.toAdd.isEmpty && plan.toRemove.isEmpty

/-- The node appears among the replicas, in any role. -/
def assignedTo (nodeId : NodeId) (r : RangeDescriptor) : Bool :=
  r.replicas.any fun p => p.nodeId == nodeId

/-- The ranges that the placement driver wants on a node, by id. -/
def pdAssigned (nodeId : NodeId) (pdRanges : List RangeDescriptor) :
    OrdMap RangeId RangeDescriptor :=
  OrdMap.insertAll ∅ (·.rangeId) id (pdRanges.filter (assignedTo nodeId))

def planReconcile (nodeId : NodeId) (pdRanges localDescriptors : List RangeDescriptor)
    (skipLocalRanges : Finset RangeId) : ReconcilePlan :=
  let assigned := pdAssigned nodeId pdRanges
  let localIds := localDescriptors.map (·.rangeId)
  { toAdd := (assigned.values.filter fun d =>
      !localIds.contains d.rangeId && !decide (d.rangeId ∈ skipLocalRanges)).mergeSort
        fun a b => decide (a.rangeId ≤ b.rangeId)
    toRemove := (localDescriptors.filterMap fun d =>
      if decide (d.rangeId ∈ skipLocalRanges) || assigned[d.rangeId]?.isSome then none
      else some d.rangeId).mergeSort fun a b => decide (a ≤ b) }

/-! ### Execution -/

/-- How the shutdown of a removed runtime ends. -/
inductive ShutdownOutcome where
  | done
  | failed
  | shared
deriving DecidableEq, Repr

/-- What the machine does: whether a range opens on disk, and how a runtime shuts down. -/
structure Host where
  opens : RangeDescriptor → Bool
  shutdown : RangeId → ShutdownOutcome

inductive ExecutorError where
  | openFailed (rangeId : RangeId)
  | insertFailed (rangeId : RangeId) (source : RangeDirectoryError)
  | shutdownFailed (rangeId : RangeId)
  | forceShutdown (rangeId : RangeId)
deriving DecidableEq, Repr

structure ExecutorReport where
  added : List RangeId
  removed : List RangeId
  errors : List ExecutorError
deriving DecidableEq, Repr

def openAndRegister (host : Host) (dir : RangeDirectory) (descriptor : RangeDescriptor) :
    Except ExecutorError RangeDirectory :=
  if host.opens descriptor then
    match dir.insert ⟨descriptor⟩ with
    | .ok dir => .ok dir
    | .error e => .error (.insertFailed descriptor.rangeId e)
  else .error (.openFailed descriptor.rangeId)

/-- Take a range out of the directory and shut it down; a range that is gone already is fine. -/
def removeAndShutdown (host : Host) (dir : RangeDirectory) (rangeId : RangeId) :
    Except ExecutorError Unit × RangeDirectory :=
  match dir.remove rangeId with
  | (none, dir) => (.ok (), dir)
  | (some _, dir) =>
      match host.shutdown rangeId with
      | .done => (.ok (), dir)
      | .failed => (.error (.shutdownFailed rangeId), dir)
      | .shared => (.error (.forceShutdown rangeId), dir)

def addStep (host : Host) (acc : ExecutorReport × RangeDirectory) (descriptor : RangeDescriptor) :
    ExecutorReport × RangeDirectory :=
  match openAndRegister host acc.2 descriptor with
  | .ok dir => ({ acc.1 with added := acc.1.added ++ [descriptor.rangeId] }, dir)
  | .error e => ({ acc.1 with errors := acc.1.errors ++ [e] }, acc.2)

def removeStep (host : Host) (acc : ExecutorReport × RangeDirectory) (rangeId : RangeId) :
    ExecutorReport × RangeDirectory :=
  match removeAndShutdown host acc.2 rangeId with
  | (.ok (), dir) => ({ acc.1 with removed := acc.1.removed ++ [rangeId] }, dir)
  | (.error e, dir) => ({ acc.1 with errors := acc.1.errors ++ [e] }, dir)

/-- Open, then close; errors are collected and the plan goes on. -/
def executePlan (host : Host) (dir : RangeDirectory) (plan : ReconcilePlan) :
    ExecutorReport × RangeDirectory :=
  plan.toRemove.foldl (removeStep host) (plan.toAdd.foldl (addStep host) (⟨[], [], []⟩, dir))

section Ticks

variable (host : Host) (nodeId : NodeId) (pdRanges : List RangeDescriptor)
variable (skip : Finset RangeId)

/-- The plan of a tick. -/
def tickPlan (dir : RangeDirectory) : ReconcilePlan :=
  planReconcile nodeId pdRanges dir.descriptors skip

/-- The directory after a tick. -/
def tick (dir : RangeDirectory) : RangeDirectory :=
  (executePlan host dir (tickPlan nodeId pdRanges skip dir)).2

/-- The directory after a number of ticks. -/
def ticks (dir : RangeDirectory) (n : ℕ) : RangeDirectory :=
  (tick host nodeId pdRanges skip)^[n] dir

end Ticks

/-! ### What the plan contains -/

section Plan

variable {nodeId : NodeId} {pdRanges : List RangeDescriptor} {skip : Finset RangeId}
variable {dir : RangeDirectory}

/-- With one descriptor per id the assigned ranges are those that name the node. -/
theorem pdAssigned_eq_some_iff (hids : (pdRanges.map (·.rangeId)).Nodup) (i : RangeId)
    (d : RangeDescriptor) :
    (pdAssigned nodeId pdRanges)[i]? = some d ↔
      d ∈ pdRanges ∧ assignedTo nodeId d = true ∧ d.rangeId = i := by
  have hagree : ∀ x ∈ pdRanges.filter (assignedTo nodeId),
      ∀ y ∈ pdRanges.filter (assignedTo nodeId), x.rangeId = y.rangeId → id x = id y := by
    intro x hx y hy hxy
    exact List.inj_on_of_nodup_map hids (List.mem_of_mem_filter hx) (List.mem_of_mem_filter hy) hxy
  unfold pdAssigned
  rw [OrdMap.get_insertAll_iff _ _ _ hagree]
  constructor
  · rintro ⟨x, hx, hxi, rfl⟩
    obtain ⟨hmem, hassigned⟩ := List.mem_filter.mp hx
    exact ⟨hmem, hassigned, hxi⟩
  · rintro ⟨hmem, hassigned, hi⟩
    exact ⟨d, List.mem_filter.mpr ⟨hmem, hassigned⟩, hi, rfl⟩

/-- The placement driver assigns the range to the node. -/
def Wanted (nodeId : NodeId) (pdRanges : List RangeDescriptor) (i : RangeId) : Prop :=
  ∃ d ∈ pdRanges, assignedTo nodeId d = true ∧ d.rangeId = i

theorem not_wanted_iff (hids : (pdRanges.map (·.rangeId)).Nodup) (i : RangeId) :
    ¬Wanted nodeId pdRanges i ↔ (pdAssigned nodeId pdRanges)[i]? = none := by
  rw [← not_iff_not, not_not, ← ne_eq, Option.ne_none_iff_exists']
  exact exists_congr fun d => (pdAssigned_eq_some_iff hids i d).symm

theorem mem_localIds (i : RangeId) :
    i ∈ dir.descriptors.map (·.rangeId) ↔ dir.getRange i ≠ none := by
  rw [List.mem_map]
  constructor
  · rintro ⟨d, hd, rfl⟩
    rw [RangeDirectory.mem_descriptors.mp hd]
    exact Option.some_ne_none _
  · intro h
    obtain ⟨r, hr⟩ := Option.ne_none_iff_exists'.mp h
    have hid := RangeDirectory.rangeId_of_getRange hr
    refine ⟨r.descriptor, RangeDirectory.mem_descriptors.mpr ?_, hid⟩
    show dir.getRange r.rangeId = some r
    rw [hid, hr]

/-- A tick opens the assigned ranges that are neither open nor skipped. -/
theorem mem_toAdd (hids : (pdRanges.map (·.rangeId)).Nodup) (d : RangeDescriptor) :
    d ∈ (tickPlan nodeId pdRanges skip dir).toAdd ↔
      (pdAssigned nodeId pdRanges)[d.rangeId]? = some d ∧ dir.getRange d.rangeId = none ∧
        d.rangeId ∉ skip := by
  have hvalues : d ∈ (pdAssigned nodeId pdRanges).values ↔
      (pdAssigned nodeId pdRanges)[d.rangeId]? = some d := by
    rw [OrdMap.mem_values]
    constructor
    · rintro ⟨i, hi⟩
      rw [((pdAssigned_eq_some_iff hids i d).mp hi).2.2]
      exact hi
    · intro h
      exact ⟨_, h⟩
  show d ∈ List.mergeSort _ _ ↔ _
  rw [List.mem_mergeSort, List.mem_filter, hvalues]
  simp only [Bool.and_eq_true, Bool.not_eq_true', decide_eq_false_iff_not,
    List.contains_eq_mem, mem_localIds, not_not]

/-- A tick closes the open ranges that are neither assigned nor skipped. -/
theorem mem_toRemove (hids : (pdRanges.map (·.rangeId)).Nodup) (i : RangeId) :
    i ∈ (tickPlan nodeId pdRanges skip dir).toRemove ↔
      dir.getRange i ≠ none ∧ i ∉ skip ∧ ¬Wanted nodeId pdRanges i := by
  show i ∈ List.mergeSort _ _ ↔ _
  rw [List.mem_mergeSort, List.mem_filterMap, not_wanted_iff hids, ← mem_localIds, List.mem_map]
  constructor
  · rintro ⟨d, hd, hi⟩
    split_ifs at hi with hcond
    cases hi
    simp only [Bool.or_eq_true, decide_eq_true_eq, not_or, Option.not_isSome_iff_eq_none] at hcond
    exact ⟨⟨d, hd, rfl⟩, hcond⟩
  · rintro ⟨⟨d, hd, rfl⟩, hskip, hassigned⟩
    refine ⟨d, hd, ?_⟩
    rw [if_neg]
    simp [hskip, hassigned]

end Plan

/-! ### What the executor does -/

section Execute

variable (host : Host)

/-- An addition keeps what is there and adds at most its own range. -/
theorem getRange_addStep (acc : ExecutorReport × RangeDirectory) (d : RangeDescriptor)
    (i : RangeId) :
    (addStep host acc d).2.getRange i = acc.2.getRange i ∨
      d.rangeId = i ∧ acc.2.getRange i = none ∧ (addStep host acc d).2.getRange i = some ⟨d⟩ := by
  unfold addStep openAndRegister
  by_cases hopen : host.opens d = true
  · rw [if_pos hopen]
    cases hins : acc.2.insert ⟨d⟩ with
    | error e => exact Or.inl rfl
    | ok dir' =>
        obtain ⟨hfree, hget⟩ := RangeDirectory.getRange_insert hins
        show dir'.getRange i = _ ∨ _ ∧ _ ∧ dir'.getRange i = _
        rw [hget i]
        by_cases hi : d.rangeId = i
        · subst hi
          exact Or.inr ⟨rfl, hfree, if_pos rfl⟩
        · exact Or.inl (if_neg hi)
  · rw [if_neg hopen]
    exact Or.inl rfl

/-- A range whose ids are free opens. -/
theorem addStep_of_free (acc : ExecutorReport × RangeDirectory) {d : RangeDescriptor}
    (hopen : host.opens d = true) (hrange : acc.2.getRange d.rangeId = none)
    (hgroup : ∀ i t, acc.2.getRange i = some t → t.groupId ≠ d.raftGroupId) :
    (addStep host acc d).2.getRange d.rangeId = some ⟨d⟩ := by
  obtain ⟨dir', hins⟩ := RangeDirectory.insert_of_free (r := ⟨d⟩) hrange hgroup
  unfold addStep openAndRegister
  rw [if_pos hopen, hins]
  show dir'.getRange d.rangeId = _
  rw [(RangeDirectory.getRange_insert hins).2]
  exact if_pos rfl

theorem getRange_foldl_addStep (ds : List RangeDescriptor) (acc : ExecutorReport × RangeDirectory)
    (i : RangeId) :
    (ds.foldl (addStep host) acc).2.getRange i = acc.2.getRange i ∨
      ∃ d ∈ ds, d.rangeId = i ∧ acc.2.getRange i = none ∧
        (ds.foldl (addStep host) acc).2.getRange i = some ⟨d⟩ := by
  induction ds generalizing acc with
  | nil => exact Or.inl rfl
  | cons e ds ih =>
      rw [List.foldl_cons]
      rcases ih (addStep host acc e) with hsame | ⟨d, hd, hi, hnone, hsome⟩
      · rcases getRange_addStep host acc e i with hstep | ⟨hi, hnone, hsome⟩
        · exact Or.inl (hsame.trans hstep)
        · exact Or.inr ⟨e, List.mem_cons_self, hi, hnone, hsame.trans hsome⟩
      · rcases getRange_addStep host acc e i with hstep | ⟨_, _, hsome'⟩
        · exact Or.inr ⟨d, List.mem_cons_of_mem _ hd, hi, hstep ▸ hnone, hsome⟩
        · rw [hnone] at hsome'
          cases hsome'

/-- A range of the list opens when its two ids are free in the directory and its own in the
list. -/
theorem foldl_addStep_of_free {ds : List RangeDescriptor} (acc : ExecutorReport × RangeDirectory)
    (hopen : ∀ d, host.opens d = true) {d : RangeDescriptor} (hd : d ∈ ds)
    (hids : ∀ e ∈ ds, e.rangeId = d.rangeId → e = d)
    (hgroups : ∀ e ∈ ds, e.raftGroupId = d.raftGroupId → e = d)
    (hrange : acc.2.getRange d.rangeId = none)
    (hgroup : ∀ i t, acc.2.getRange i = some t → t.groupId ≠ d.raftGroupId) :
    (ds.foldl (addStep host) acc).2.getRange d.rangeId = some ⟨d⟩ := by
  induction ds generalizing acc with
  | nil => simp at hd
  | cons e ds ih =>
      rw [List.foldl_cons]
      by_cases he : e = d
      · subst he
        have hstep := addStep_of_free host acc (hopen e) hrange hgroup
        rcases getRange_foldl_addStep host ds (addStep host acc e) e.rangeId with
          hsame | ⟨_, _, _, hnone, _⟩
        · exact hsame.trans hstep
        · rw [hstep] at hnone
          cases hnone
      · have hmem : d ∈ ds := by
          rcases List.mem_cons.mp hd with hde | hd
          · exact absurd hde.symm he
          · exact hd
        apply ih (addStep host acc e) hmem (fun x hx => hids x (List.mem_cons_of_mem _ hx))
          (fun x hx => hgroups x (List.mem_cons_of_mem _ hx))
        · rcases getRange_addStep host acc e d.rangeId with hstep | ⟨hi, _, _⟩
          · exact hstep.trans hrange
          · exact absurd (hids e List.mem_cons_self hi) he
        · intro i t ht
          rcases getRange_addStep host acc e i with hstep | ⟨_, _, hsome⟩
          · exact hgroup i t (hstep ▸ ht)
          · rw [hsome] at ht
            cases ht
            exact fun hg => he (hgroups e List.mem_cons_self hg)

theorem getRange_removeStep (acc : ExecutorReport × RangeDirectory) (j i : RangeId) :
    (removeStep host acc j).2.getRange i = if j = i then none else acc.2.getRange i := by
  have hdir : (removeStep host acc j).2 = (acc.2.remove j).2 := by
    unfold removeStep removeAndShutdown
    rcases acc.2.remove j with ⟨r, dir⟩
    cases r with
    | none => rfl
    | some r => cases host.shutdown j <;> rfl
  rw [hdir, RangeDirectory.getRange_remove]

theorem getRange_foldl_removeStep (js : List RangeId) (acc : ExecutorReport × RangeDirectory)
    (i : RangeId) :
    (js.foldl (removeStep host) acc).2.getRange i = if i ∈ js then none else acc.2.getRange i := by
  induction js generalizing acc with
  | nil => simp
  | cons j js ih =>
      rw [List.foldl_cons, ih, getRange_removeStep]
      by_cases hjs : i ∈ js
      · simp [hjs]
      · by_cases hj : j = i
        · simp [hj]
        · simp [hjs, hj, Ne.symm hj]

end Execute

/-! ### One tick -/

section Tick

variable (host : Host) (nodeId : NodeId) {pdRanges : List RangeDescriptor} (skip : Finset RangeId)
variable (dir : RangeDirectory)

/-- What a tick leaves under an id: nothing when the range has to go; what was there; or a range
that was missing. -/
theorem getRange_tick (hids : (pdRanges.map (·.rangeId)).Nodup) (i : RangeId) :
    (i ∉ skip ∧ ¬Wanted nodeId pdRanges i ∧
      (tick host nodeId pdRanges skip dir).getRange i = none) ∨
      (i ∈ skip ∨ Wanted nodeId pdRanges i) ∧
        ((tick host nodeId pdRanges skip dir).getRange i = dir.getRange i ∨
          i ∉ skip ∧ dir.getRange i = none ∧
            ∃ d, (pdAssigned nodeId pdRanges)[i]? = some d ∧
              (tick host nodeId pdRanges skip dir).getRange i = some ⟨d⟩) := by
  have htick : (tick host nodeId pdRanges skip dir).getRange i =
      if i ∈ (tickPlan nodeId pdRanges skip dir).toRemove then none
      else ((tickPlan nodeId pdRanges skip dir).toAdd.foldl (addStep host)
        (⟨[], [], []⟩, dir)).2.getRange i := getRange_foldl_removeStep host _ _ i
  have hadds := getRange_foldl_addStep host (tickPlan nodeId pdRanges skip dir).toAdd
    (⟨[], [], []⟩, dir) i
  by_cases hstay : i ∈ skip ∨ Wanted nodeId pdRanges i
  · refine Or.inr ⟨hstay, ?_⟩
    have hnot : i ∉ (tickPlan nodeId pdRanges skip dir).toRemove := by
      intro hmem
      exact not_or.mpr ((mem_toRemove hids i).mp hmem).2 hstay
    rw [if_neg hnot] at htick
    rw [htick]
    rcases hadds with hsame | ⟨d, hd, rfl, hnone, hsome⟩
    · exact Or.inl hsame
    · obtain ⟨hassigned, _, hskip⟩ := (mem_toAdd hids d).mp hd
      exact Or.inr ⟨hskip, hnone, d, hassigned, hsome⟩
  · rw [not_or] at hstay
    refine Or.inl ⟨hstay.1, hstay.2, ?_⟩
    rw [htick]
    split_ifs with hmem
    · rfl
    · rcases hadds with hsame | ⟨d, hd, rfl, _, _⟩
      · rw [hsame]
        by_contra hne
        exact hmem ((mem_toRemove hids i).mpr ⟨hne, hstay⟩)
      · have hnone := (not_wanted_iff hids d.rangeId).mp hstay.2
        rw [((mem_toAdd hids d).mp hd).1] at hnone
        cases hnone

variable {skip dir}

/-- A skipped or still assigned range stays as it is. -/
theorem tick_keeps (hids : (pdRanges.map (·.rangeId)).Nodup) {i : RangeId} {r : RangeRuntime}
    (hr : dir.getRange i = some r) (hstay : i ∈ skip ∨ Wanted nodeId pdRanges i) :
    (tick host nodeId pdRanges skip dir).getRange i = some r := by
  rcases getRange_tick host nodeId skip dir hids i with
    ⟨hskip, hwanted, _⟩ | ⟨_, hsame | ⟨_, hnone, _⟩⟩
  · rcases hstay with hs | hw
    · exact absurd hs hskip
    · exact absurd hw hwanted
  · rw [hsame, hr]
  · rw [hr] at hnone
    cases hnone

/-- No tick touches a skipped id. -/
theorem tick_skips (hids : (pdRanges.map (·.rangeId)).Nodup) {i : RangeId} (hi : i ∈ skip) :
    (tick host nodeId pdRanges skip dir).getRange i = dir.getRange i := by
  rcases getRange_tick host nodeId skip dir hids i with
    ⟨hskip, _, _⟩ | ⟨_, hsame | ⟨hskip, _, _⟩⟩
  · exact absurd hi hskip
  · exact hsame
  · exact absurd hi hskip

/-- Every open range is skipped or assigned. -/
def Clean (nodeId : NodeId) (pdRanges : List RangeDescriptor) (skip : Finset RangeId)
    (dir : RangeDirectory) : Prop :=
  ∀ i, dir.getRange i ≠ none → i ∈ skip ∨ Wanted nodeId pdRanges i

/-- One tick closes everything that has to go. -/
theorem tick_clean (hids : (pdRanges.map (·.rangeId)).Nodup) :
    Clean nodeId pdRanges skip (tick host nodeId pdRanges skip dir) := by
  intro i hi
  rcases getRange_tick host nodeId skip dir hids i with ⟨_, _, hnone⟩ | ⟨hstay, _⟩
  · exact absurd hnone hi
  · exact hstay

/-- An assigned range outside the skip set. -/
def Assigned (nodeId : NodeId) (pdRanges : List RangeDescriptor) (skip : Finset RangeId)
    (d : RangeDescriptor) : Prop :=
  d ∈ pdRanges ∧ assignedTo nodeId d = true ∧ d.rangeId ∉ skip

theorem assigned_iff (hids : (pdRanges.map (·.rangeId)).Nodup) (d : RangeDescriptor) :
    Assigned nodeId pdRanges skip d ↔
      (pdAssigned nodeId pdRanges)[d.rangeId]? = some d ∧ d.rangeId ∉ skip := by
  rw [pdAssigned_eq_some_iff hids]
  unfold Assigned
  tauto

/-- The group ids of the assigned ranges: one range each, none of a skipped local range, and the
one that the range already has when it is open. -/
structure GroupsFit (nodeId : NodeId) (pdRanges : List RangeDescriptor) (skip : Finset RangeId)
    (dir : RangeDirectory) : Prop where
  distinct : ∀ d e, Assigned nodeId pdRanges skip d → Assigned nodeId pdRanges skip e →
    d.raftGroupId = e.raftGroupId → d.rangeId = e.rangeId
  skipped : ∀ d, Assigned nodeId pdRanges skip d → ∀ i ∈ skip, ∀ r, dir.getRange i = some r →
    r.groupId ≠ d.raftGroupId
  agree : ∀ d, Assigned nodeId pdRanges skip d → ∀ r, dir.getRange d.rangeId = some r →
    r.groupId = d.raftGroupId

/-- Group ids that fit go on fitting. -/
theorem tick_fits (hids : (pdRanges.map (·.rangeId)).Nodup)
    (h : GroupsFit nodeId pdRanges skip dir) :
    GroupsFit nodeId pdRanges skip (tick host nodeId pdRanges skip dir) where
  distinct := h.distinct
  skipped := by
    intro d hd i hi r hr
    rw [tick_skips host nodeId hids hi] at hr
    exact h.skipped d hd i hi r hr
  agree := by
    intro d hd r hr
    rcases getRange_tick host nodeId skip dir hids d.rangeId with
      ⟨_, _, hnone⟩ | ⟨_, hsame | ⟨_, _, e, he, hsome⟩⟩
    · rw [hr] at hnone
      cases hnone
    · exact h.agree d hd r (hsame ▸ hr)
    · rw [((assigned_iff nodeId hids d).mp hd).1] at he
      cases he
      rw [hr] at hsome
      cases hsome
      rfl

/-- With nothing left to close, no open range has the group id of an assigned range that is not
open. -/
theorem GroupsFit.group_free (hfit : GroupsFit nodeId pdRanges skip dir)
    (hclean : Clean nodeId pdRanges skip dir) {d : RangeDescriptor}
    (hd : Assigned nodeId pdRanges skip d) (hrange : dir.getRange d.rangeId = none) (i : RangeId)
    (t : RangeRuntime) (ht : dir.getRange i = some t) : t.groupId ≠ d.raftGroupId := by
  intro hg
  have hne : dir.getRange i ≠ none := by
    rw [ht]
    exact Option.some_ne_none t
  by_cases hi : i ∈ skip
  · exact hfit.skipped d hd i hi t ht hg
  · rcases hclean i hne with hs | ⟨e, he, hassigned, rfl⟩
    · exact hi hs
    · -- whoever is open under the group id of `d` is `d` itself
      have hge := hfit.agree e ⟨he, hassigned, hi⟩ t ht
      have hde := hfit.distinct e d ⟨he, hassigned, hi⟩ hd (hge.symm.trans hg)
      rw [hde, hrange] at ht
      cases ht

/-- With nothing left to close, one tick opens everything that is missing. -/
theorem tick_opens (hopen : ∀ d, host.opens d = true) (hids : (pdRanges.map (·.rangeId)).Nodup)
    (hfit : GroupsFit nodeId pdRanges skip dir) (hclean : Clean nodeId pdRanges skip dir)
    {d : RangeDescriptor} (hd : Assigned nodeId pdRanges skip d) :
    (tick host nodeId pdRanges skip dir).getRange d.rangeId ≠ none := by
  have hwanted : Wanted nodeId pdRanges d.rangeId := ⟨d, hd.1, hd.2.1, rfl⟩
  by_cases hrange : dir.getRange d.rangeId = none
  · have hassigned := (assigned_iff nodeId hids d).mp hd
    -- the plan has one descriptor for each id
    have hsame : ∀ e ∈ (tickPlan nodeId pdRanges skip dir).toAdd, e.rangeId = d.rangeId →
        e = d := by
      intro e he heq
      have hee := ((mem_toAdd hids e).mp he).1
      rw [heq, hassigned.1] at hee
      exact (Option.some.inj hee).symm
    have hgroups : ∀ e ∈ (tickPlan nodeId pdRanges skip dir).toAdd,
        e.raftGroupId = d.raftGroupId → e = d := by
      intro e he heq
      obtain ⟨hee, _, hskip⟩ := (mem_toAdd hids e).mp he
      have hde := hfit.distinct e d ((assigned_iff nodeId hids e).mpr ⟨hee, hskip⟩) hd heq
      exact hsame e he hde
    have hadd : d ∈ (tickPlan nodeId pdRanges skip dir).toAdd :=
      (mem_toAdd hids d).mpr ⟨hassigned.1, hrange, hassigned.2⟩
    have hsome := foldl_addStep_of_free host (⟨[], [], []⟩, dir) hopen hadd hsame hgroups hrange
      (hfit.group_free nodeId hclean hd hrange)
    have hnot : d.rangeId ∉ (tickPlan nodeId pdRanges skip dir).toRemove := by
      intro hmem
      exact ((mem_toRemove hids d.rangeId).mp hmem).2.2 hwanted
    have htick : (tick host nodeId pdRanges skip dir).getRange d.rangeId = some ⟨d⟩ := by
      have h := getRange_foldl_removeStep host (tickPlan nodeId pdRanges skip dir).toRemove
        ((tickPlan nodeId pdRanges skip dir).toAdd.foldl (addStep host) (⟨[], [], []⟩, dir))
        d.rangeId
      rw [if_neg hnot, hsome] at h
      exact h
    rw [htick]
    exact Option.some_ne_none _
  · obtain ⟨r, hr⟩ := Option.ne_none_iff_exists'.mp hrange
    rw [tick_keeps host nodeId hids hr (Or.inr hwanted)]
    exact Option.some_ne_none r

end Tick

/-! ### Convergence -/

section Ticks

variable {host : Host} {nodeId : NodeId} {pdRanges : List RangeDescriptor} {skip : Finset RangeId}
variable {dir : RangeDirectory}

theorem ticks_succ (n : ℕ) :
    ticks host nodeId pdRanges skip dir (n + 1) =
      tick host nodeId pdRanges skip (ticks host nodeId pdRanges skip dir n) := by
  unfold ticks
  rw [Function.iterate_succ_apply']

theorem ticks_keep (hids : (pdRanges.map (·.rangeId)).Nodup) {i : RangeId} {r : RangeRuntime}
    (hstay : i ∈ skip ∨ Wanted nodeId pdRanges i) {n m : ℕ} (hnm : n ≤ m)
    (hr : (ticks host nodeId pdRanges skip dir n).getRange i = some r) :
    (ticks host nodeId pdRanges skip dir m).getRange i = some r := by
  induction hnm with
  | refl => exact hr
  | step _ ih =>
      rw [ticks_succ]
      exact tick_keeps host nodeId hids ih hstay

theorem ticks_skip (hids : (pdRanges.map (·.rangeId)).Nodup) {i : RangeId} (hi : i ∈ skip) (n : ℕ) :
    (ticks host nodeId pdRanges skip dir n).getRange i = dir.getRange i := by
  induction n with
  | zero => rfl
  | succ n ih => rw [ticks_succ, tick_skips host nodeId hids hi, ih]

theorem ticks_fit (hids : (pdRanges.map (·.rangeId)).Nodup)
    (h : GroupsFit nodeId pdRanges skip dir) (n : ℕ) :
    GroupsFit nodeId pdRanges skip (ticks host nodeId pdRanges skip dir n) := by
  induction n with
  | zero => exact h
  | succ n ih =>
      rw [ticks_succ]
      exact tick_fits host nodeId hids ih

/-- From the second tick on every assigned range is open. -/
theorem ticks_open (hopen : ∀ d, host.opens d = true) (hids : (pdRanges.map (·.rangeId)).Nodup)
    (hfit : GroupsFit nodeId pdRanges skip dir) {n : ℕ} (hn : 2 ≤ n) {d : RangeDescriptor}
    (hd : Assigned nodeId pdRanges skip d) :
    (ticks host nodeId pdRanges skip dir n).getRange d.rangeId ≠ none := by
  obtain ⟨m, rfl⟩ : ∃ m, n = m + 1 + 1 := ⟨n - 2, by omega⟩
  rw [ticks_succ]
  refine tick_opens host nodeId hopen hids (ticks_fit hids hfit (m + 1)) ?_ hd
  rw [ticks_succ]
  exact tick_clean host nodeId hids

theorem ticks_clean (hids : (pdRanges.map (·.rangeId)).Nodup) {n : ℕ} (hn : 1 ≤ n) :
    Clean nodeId pdRanges skip (ticks host nodeId pdRanges skip dir n) := by
  obtain ⟨m, rfl⟩ : ∃ m, n = m + 1 := ⟨n - 1, by omega⟩
  rw [ticks_succ]
  exact tick_clean host nodeId hids

/-- A directory with nothing to close and nothing to open needs no plan. -/
theorem tickPlan_isEmpty (hids : (pdRanges.map (·.rangeId)).Nodup)
    (hclean : Clean nodeId pdRanges skip dir)
    (hopen : ∀ d, Assigned nodeId pdRanges skip d → dir.getRange d.rangeId ≠ none) :
    (tickPlan nodeId pdRanges skip dir).isEmpty = true := by
  have hadd : (tickPlan nodeId pdRanges skip dir).toAdd = [] := by
    rw [List.eq_nil_iff_forall_not_mem]
    intro d hd
    obtain ⟨hassigned, hnone, hskip⟩ := (mem_toAdd hids d).mp hd
    exact hopen d ((assigned_iff nodeId hids d).mpr ⟨hassigned, hskip⟩) hnone
  have hremove : (tickPlan nodeId pdRanges skip dir).toRemove = [] := by
    rw [List.eq_nil_iff_forall_not_mem]
    intro i hi
    obtain ⟨hne, hgo⟩ := (mem_toRemove hids i).mp hi
    exact not_or.mpr hgo (hclean i hne)
  unfold ReconcilePlan.isEmpty
  rw [hadd, hremove]
  rfl

/-- The directory has settled: it runs the skipped ranges it had and the assigned ones, and the
next plan is empty. -/
def Settled (nodeId : NodeId) (pdRanges : List RangeDescriptor) (skip : Finset RangeId)
    (dir settled : RangeDirectory) : Prop :=
  (∀ i, settled.getRange i ≠ none ↔
    (i ∈ skip ∧ dir.getRange i ≠ none) ∨ ∃ d, Assigned nodeId pdRanges skip d ∧ d.rangeId = i) ∧
  (tickPlan nodeId pdRanges skip settled).isEmpty = true

/-- **Reconciliation converges.**  For every range list with distinct ids, every directory and skip
set whose group ids fit: from the second tick on the directory has settled, and on the way no tick
plans to close a skipped or assigned range, and none of them is ever lost. -/
theorem reconcile_converges (host : Host) (hopen : ∀ d, host.opens d = true) (nodeId : NodeId)
    (pdRanges : List RangeDescriptor) (hids : (pdRanges.map (·.rangeId)).Nodup)
    (skip : Finset RangeId) (dir : RangeDirectory) (hfit : GroupsFit nodeId pdRanges skip dir) :
    (∀ n, 2 ≤ n → Settled nodeId pdRanges skip dir (ticks host nodeId pdRanges skip dir n)) ∧
    (∀ n, ∀ i ∈ (tickPlan nodeId pdRanges skip (ticks host nodeId pdRanges skip dir n)).toRemove,
      i ∉ skip ∧ ¬Wanted nodeId pdRanges i) ∧
    ∀ n m i r, n ≤ m → (ticks host nodeId pdRanges skip dir n).getRange i = some r →
      (i ∈ skip ∨ Wanted nodeId pdRanges i) →
      (ticks host nodeId pdRanges skip dir m).getRange i = some r := by
  refine ⟨?_, ?_, fun n m i r hnm hr hstay => ticks_keep hids hstay hnm hr⟩
  · intro n hn
    have hclean : Clean nodeId pdRanges skip (ticks host nodeId pdRanges skip dir n) :=
      ticks_clean hids (by omega)
    have hopened := fun d hd => ticks_open (d := d) hopen hids hfit hn hd
    refine ⟨?_, tickPlan_isEmpty hids hclean hopened⟩
    intro i
    constructor
    · intro hne
      by_cases hi : i ∈ skip
      · rw [ticks_skip hids hi] at hne
        exact Or.inl ⟨hi, hne⟩
      · rcases hclean i hne with hs | ⟨d, hd, hassigned, rfl⟩
        · exact absurd hs hi
        · exact Or.inr ⟨d, ⟨hd, hassigned, hi⟩, rfl⟩
    · rintro (⟨hi, hne⟩ | ⟨d, hd, rfl⟩)
      · rw [ticks_skip hids hi]
        exact hne
      · exact hopened d hd
  · intro n i hi
    exact ((mem_toRemove hids i).mp hi).2

/-- Range 3, no longer assigned, with the group id that range 2 is to have. -/
def oldRange : RangeDescriptor :=
  { RangeDescriptor.new 3 [] [] [.voter 2 1] with raftGroupId := 7 }

/-- Range 2, assigned to node 1. -/
def newRange : RangeDescriptor :=
  { RangeDescriptor.new 2 [] [] [.voter 1 1] with raftGroupId := 7 }

/-- A node that still runs the old range. -/
def busyDirectory : RangeDirectory := .single ⟨oldRange⟩

theorem getRange_busyDirectory {i : RangeId} (hi : oldRange.rangeId ≠ i) :
    busyDirectory.getRange i = none := by
  show ((∅ : OrdMap RangeId RangeRuntime).insert oldRange.rangeId ⟨oldRange⟩)[i]? = none
  rw [OrdMap.get_insert_of_ne _ _ hi, OrdMap.get_empty]

theorem busyDirectory_fits : GroupsFit 1 [newRange] {1} busyDirectory where
  distinct := by
    intro d e hd he _
    rw [List.mem_singleton.mp hd.1, List.mem_singleton.mp he.1]
  skipped := by
    intro d _ i hi r hr
    rw [Finset.mem_singleton] at hi
    subst hi
    rw [getRange_busyDirectory (by decide)] at hr
    cases hr
  agree := by
    intro d hd r hr
    rw [List.mem_singleton.mp hd.1, getRange_busyDirectory (by decide)] at hr
    cases hr

/-- The first tick cannot open range 2, whose group id is still taken. -/
theorem reconcile_converges_busy :
    (∀ d, (Host.mk (fun _ => true) fun _ => .done).opens d = true) ∧
      ([newRange].map (·.rangeId)).Nodup ∧ GroupsFit 1 [newRange] {1} busyDirectory ∧
      ∀ n, 2 ≤ n → Settled 1 [newRange] {1} busyDirectory
        (ticks (Host.mk (fun _ => true) fun _ => .done) 1 [newRange] {1} busyDirectory n) :=
  ⟨fun _ => rfl, by decide, busyDirectory_fits,
    (reconcile_converges (Host.mk (fun _ => true) fun _ => .done) (fun _ => rfl) 1 [newRange]
      (by decide) {1} busyDirectory busyDirectory_fits).1⟩

end Ticks

end AresaDb.Cluster
