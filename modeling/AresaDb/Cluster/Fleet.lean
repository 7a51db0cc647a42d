import AresaDb.Cluster.Admin
import AresaDb.Cluster.Reconcile
import AresaDb.Pd.CatalogGroups
import AresaDb.Pd.Rows

/-! # Nodes and the placement driver together

The placement driver commits commands while every node, at its own pace, asks for the ranges
(`list_ranges` of `aresadb-pd/src/admin/server.rs`) and applies the answer to its directory
(`reconcile_once` of `aresadb-cluster/src/pd_supervisor/supervisor.rs`).  The two halves of a pass
are two events, so commands and the passes of other nodes may fall between them, and the member
that answers may have applied only a beginning of the log.  A node that restarts runs its default
range and nothing else (`ClusterNode::start`). -/

namespace AresaDb.Cluster

open AresaDb.Pd (RangeId GroupId NodeId RangeDescriptor PdCommand Catalog)
open Pd.Catalog (new step after NoOverflow SplitGroupFresh Sound Routed GroupExact retired)

/-! ### The fleet -/

/-- The range that every node runs from its start; its group id is its range id. -/
def defaultRange (nodeId : NodeId) : RangeRuntime :=
  ⟨.new defaultRangeId [] [] [.voter nodeId 1]⟩

/-- `PdSupervisorConfig::skip_local_ranges`, as `new` sets it. -/
def skipLocalRanges : Finset RangeId := {defaultRangeId}

theorem mem_skipLocalRanges {i : RangeId} : i ∈ skipLocalRanges ↔ i = defaultRangeId :=
  Finset.mem_singleton

structure Fleet where
  /-- The committed commands. -/
  log : List PdCommand
  /-- The answer that a node has received and not yet applied. -/
  fetched : NodeId → Option (List RangeDescriptor)
  dirs : NodeId → RangeDirectory

inductive Event where
  | commit (cmd : PdCommand)
  /-- A member that has applied a number of commands answers a node. -/
  | listRanges (nodeId : NodeId) (applied : ℕ)
  /-- A node applies the answer; the host says which opens and stops go well this time. -/
  | reconcile (nodeId : NodeId) (host : Host)
  | restart (nodeId : NodeId)

namespace Fleet

/-- Nothing is committed, and every node has just started. -/
def start : Fleet := ⟨[], fun _ => none, fun nodeId => .single (defaultRange nodeId)⟩

/-- A node goes on with another answer to apply and another directory. -/
def setNode (f : Fleet) (nodeId : NodeId) (fetched : Option (List RangeDescriptor))
    (dir : RangeDirectory) : Fleet :=
  { f with
    fetched := Function.update f.fetched nodeId fetched
    dirs := Function.update f.dirs nodeId dir }

/-- `plan_reconcile` on the fetched list and `execute_plan`. -/
def apply (f : Fleet) : Event → Fleet
  | .commit cmd => { f with log := f.log ++ [cmd] }
  | .listRanges nodeId applied =>
      f.setNode nodeId (after (f.log.take applied)).iterRangesByStart (f.dirs nodeId)
  | .reconcile nodeId host =>
      match f.fetched nodeId with
      | none => f
      | some pdRanges =>
          f.setNode nodeId none (tick host nodeId pdRanges skipLocalRanges (f.dirs nodeId))
  | .restart nodeId => f.setNode nodeId none (.single (defaultRange nodeId))

/-- The fleet after some events. -/
def run (events : List Event) : Fleet := Run.run apply start events

end Fleet

/-! ### Listings -/

/-- Looking up some ids gives descriptors of these ids. -/
theorem map_mapM_some {α β : Type} {f : α → Option β} {g : β → α} {l : List α} {ys : List β}
    (hg : ∀ x y, f x = some y → g y = x) (h : l.mapM f = some ys) : ys.map g = l := by
  induction l generalizing ys with
  | nil =>
      obtain rfl : ys = [] := by simpa using h.symm
      rfl
  | cons x l ih =>
      rw [List.mapM_cons] at h
      obtain ⟨y, hy, h⟩ := Option.bind_eq_some_iff.mp h
      obtain ⟨zs, hzs, h⟩ := Option.bind_eq_some_iff.mp h
      obtain rfl := Option.some.inj h
      rw [List.map_cons, hg x y hy, ih hzs]

/-- A sound catalog is listed: each of its ranges once, and nothing else. -/
theorem listing {c : Catalog} (h : c.Sound) :
    ∃ l, c.iterRangesByStart = some l ∧ (l.map (·.rangeId)).Nodup ∧
      ∀ d, d ∈ l ↔ c.ranges[d.rangeId]? = some d := by
  obtain ⟨l, hl, hmem⟩ := Pd.mapM_eq_some h.startExact.live
  have hids : l.map (·.rangeId) = c.byStart.values :=
    map_mapM_some (fun id d hd => h.routed.keyed id d hd) hl
  refine ⟨l, hl, ?_, fun d => ?_⟩
  · rw [hids]
    have hnodup := OrdMap.nodup_values_map c.byStart (f := id) fun s t i j hs ht hij => by
      obtain ⟨d, hd, rfl⟩ := (h.startExact s i).mp hs
      obtain ⟨e, he, rfl⟩ := (h.startExact t j).mp ht
      obtain rfl : i = j := hij
      rw [hd] at he
      rw [Option.some.inj he]
    rwa [List.map_id] at hnodup
  · rw [hmem]
    constructor
    · rintro ⟨id, -, hd⟩
      rw [h.routed.keyed id d hd]
      exact hd
    · intro hd
      exact ⟨d.rangeId, (OrdMap.mem_values _ _).mpr ⟨d.startKey, h.routed.indexed _ d hd⟩, hd⟩

/-! ### What holds in every run -/

namespace Fleet

/-- A list that some member has answered with. -/
def Listed (log : List PdCommand) (l : List RangeDescriptor) : Prop :=
  ∃ p, p <+: log ∧ (after p).iterRangesByStart = some l

/-- The descriptor was the one of its range at some time, and named the node. -/
def WasAssigned (log : List PdCommand) (nodeId : NodeId) (d : RangeDescriptor) : Prop :=
  ∃ p, p <+: log ∧ (after p).ranges[d.rangeId]? = some d ∧ assignedTo nodeId d = true

theorem Listed.mono {log log' : List PdCommand} (h : log <+: log') {l : List RangeDescriptor}
    (hl : Listed log l) : Listed log' l := by
  obtain ⟨p, hp, hlist⟩ := hl
  exact ⟨p, hp.trans h, hlist⟩

theorem WasAssigned.mono {log log' : List PdCommand} (h : log <+: log') {nodeId : NodeId}
    {d : RangeDescriptor} (hd : WasAssigned log nodeId d) : WasAssigned log' nodeId d := by
  obtain ⟨p, hp, hassigned⟩ := hd
  exact ⟨p, hp.trans h, hassigned⟩

/-- Every node runs its default range, beside it only what it was assigned at some time, and waits
to apply only what some member has answered. -/
structure Inv (f : Fleet) : Prop where
  fetched : ∀ nodeId l, f.fetched nodeId = some l → Listed f.log l
  default : ∀ nodeId, (f.dirs nodeId).getRange defaultRangeId = some (defaultRange nodeId)
  hosted : ∀ nodeId i r, i ≠ defaultRangeId → (f.dirs nodeId).getRange i = some r →
    r.rangeId = i ∧ WasAssigned f.log nodeId r.descriptor

/-- The members answer from sound catalogs. -/
theorem listed_spec {log : List PdCommand} (ho : Run.Along step NoOverflow new log)
    {l : List RangeDescriptor} (hl : Listed log l) :
    (l.map (·.rangeId)).Nodup ∧
      ∀ nodeId d, d ∈ l → assignedTo nodeId d = true → WasAssigned log nodeId d := by
  obtain ⟨p, hp, hlist⟩ := hl
  obtain ⟨l', hl', hids, hmem⟩ := listing (Pd.Catalog.sound_after (ho.upto hp))
  obtain rfl := Option.some.inj (hlist.symm.trans hl')
  exact ⟨hids, fun nodeId d hd hassigned => ⟨p, hp, (hmem d).mp hd, hassigned⟩⟩

theorem getRange_single (r : RangeRuntime) (i : RangeId) :
    (RangeDirectory.single r).getRange i = if r.rangeId = i then some r else none := by
  show ((∅ : OrdMap RangeId RangeRuntime).insert r.rangeId r)[i]? = _
  rw [OrdMap.get_insert, OrdMap.get_empty]

/-- A node that has just started runs its default range only. -/
theorem getRange_started (nodeId : NodeId) {i : RangeId} (hi : i ≠ defaultRangeId) :
    (RangeDirectory.single (defaultRange nodeId)).getRange i = none := by
  rw [getRange_single]
  exact if_neg (Ne.symm hi)

theorem inv_start : Inv start where
  fetched nodeId l h := by cases h
  default nodeId := by
    show (RangeDirectory.single (defaultRange nodeId)).getRange defaultRangeId = _
    rw [getRange_single]
    exact if_pos rfl
  hosted nodeId i r hi hr := by
    rw [show (start.dirs nodeId).getRange i = none from getRange_started nodeId hi] at hr
    cases hr

variable {f : Fleet}

/-- What a pass leaves open was open before, or the list assigns it to the node. -/
theorem Inv.tick (h : Inv f) (ho : Run.Along step NoOverflow new f.log) {nodeId : NodeId}
    {l : List RangeDescriptor} (hl : Listed f.log l) (host : Host) {i : RangeId} {r : RangeRuntime}
    (hi : i ≠ defaultRangeId)
    (hr : (Cluster.tick host nodeId l skipLocalRanges (f.dirs nodeId)).getRange i = some r) :
    r.rangeId = i ∧ WasAssigned f.log nodeId r.descriptor := by
  obtain ⟨hids, hassigned⟩ := listed_spec ho hl
  rcases getRange_tick host nodeId skipLocalRanges (f.dirs nodeId) hids i with
    ⟨-, -, hnone⟩ | ⟨-, hsame | ⟨-, -, d, hd, hsome⟩⟩
  · rw [hnone] at hr
    cases hr
  · exact h.hosted nodeId i r hi (hsame ▸ hr)
  · obtain ⟨hmem, hnode, hid⟩ := (pdAssigned_eq_some_iff hids i d).mp hd
    obtain rfl := Option.some.inj (hsome.symm.trans hr)
    exact ⟨hid, hassigned nodeId d hmem hnode⟩

@[simp] theorem log_setNode (f : Fleet) (n : NodeId) (l : Option (List RangeDescriptor))
    (dir : RangeDirectory) : (f.setNode n l dir).log = f.log := rfl

theorem fetched_setNode (f : Fleet) (n m : NodeId) (l : Option (List RangeDescriptor))
    (dir : RangeDirectory) :
    (f.setNode n l dir).fetched m = if m = n then l else f.fetched m := by
  simp only [setNode, Function.update_apply]

theorem dirs_setNode (f : Fleet) (n m : NodeId) (l : Option (List RangeDescriptor))
    (dir : RangeDirectory) : (f.setNode n l dir).dirs m = if m = n then dir else f.dirs m := by
  simp only [setNode, Function.update_apply]

/-- What holds of every node goes on to hold when one node changes within it. -/
theorem Inv.setNode (h : Inv f) {n : NodeId} {l : Option (List RangeDescriptor)}
    {dir : RangeDirectory} (hl : ∀ l', l = some l' → Listed f.log l')
    (hdefault : dir.getRange defaultRangeId = some (defaultRange n))
    (hhosted : ∀ i r, i ≠ defaultRangeId → dir.getRange i = some r →
      r.rangeId = i ∧ WasAssigned f.log n r.descriptor) : Inv (f.setNode n l dir) where
  fetched m l' hl' := by
    rw [fetched_setNode] at hl'
    split_ifs at hl'
    · exact hl l' hl'
    · exact h.fetched m l' hl'
  default m := by
    rw [dirs_setNode]
    split_ifs with hm
    · rw [hm, hdefault]
    · exact h.default m
  hosted m i r hi hr := by
    rw [dirs_setNode] at hr
    split_ifs at hr with hm
    · rw [hm]
      exact hhosted i r hi hr
    · exact h.hosted m i r hi hr

theorem Inv.apply (h : Inv f) (ho : Run.Along step NoOverflow new f.log) (e : Event) :
    Inv (f.apply e) := by
  cases e with
  | commit cmd =>
      have hp : f.log <+: f.log ++ [cmd] := List.prefix_append _ _
      exact ⟨fun n l hl => (h.fetched n l hl).mono hp, h.default,
        fun n i r hi hr => ⟨(h.hosted n i r hi hr).1, (h.hosted n i r hi hr).2.mono hp⟩⟩
  | listRanges nodeId applied =>
      exact h.setNode (fun l hl => ⟨_, List.take_prefix _ _, hl⟩) (h.default nodeId)
        (h.hosted nodeId)
  | reconcile nodeId host =>
      rw [Fleet.apply]
      cases hl : f.fetched nodeId with
      | none => exact h
      | some l =>
          have hlisted := h.fetched nodeId l hl
          have hids := (listed_spec ho hlisted).1
          refine h.setNode (fun l' hl' => by cases hl') ?_ fun i r => h.tick ho hlisted _
          rw [tick_skips host nodeId hids (mem_skipLocalRanges.mpr rfl)]
          exact h.default nodeId
  | restart nodeId =>
      refine h.setNode (fun l hl => by cases hl) (inv_start.default nodeId) fun i r hi hr => ?_
      rw [getRange_started nodeId hi] at hr
      cases hr

theorem run_concat (events : List Event) (e : Event) :
    run (events ++ [e]) = (run events).apply e := Run.run_concat _ _ _ _

theorem log_apply (f : Fleet) (e : Event) : f.log <+: (f.apply e).log := by
  cases e with
  | commit cmd => exact List.prefix_append _ _
  | reconcile nodeId host =>
      rw [Fleet.apply]
      cases f.fetched nodeId <;> exact List.prefix_refl _
  | _ => exact List.prefix_refl _

theorem inv_run {events : List Event} (ho : Run.Along step NoOverflow new (run events).log) :
    Inv (run events) := by
  induction events using List.reverseRecOn with
  | nil => exact inv_start
  | append_singleton events e ih =>
      rw [run_concat] at ho ⊢
      have hgrows : (run events).log <+: ((run events).apply e).log := log_apply (run events) e
      have hbefore := ho.upto hgrows
      exact (ih hbefore).apply hbefore e

/-! ### Two rounds are enough -/

/-- How far a node has come: after an even number of turns it has to ask, after an odd number to
apply the answer. -/
def turn (nodeId : NodeId) (turns : ℕ) : Event → ℕ
  | .listRanges n _ => if n = nodeId ∧ turns % 2 = 0 then turns + 1 else turns
  | .reconcile n _ => if n = nodeId ∧ turns % 2 = 1 then turns + 1 else turns
  | .commit _ | .restart _ => turns

/-- The times that a node has asked and then applied an answer. -/
def rounds (nodeId : NodeId) (events : List Event) : ℕ := events.foldl (turn nodeId) 0 / 2

/-- Nothing is committed, and for one node all goes well: its answers come from members that are up
to date, no open fails on it, and it does not restart. -/
def Quiet (nodeId : NodeId) (f : Fleet) : Event → Prop
  | .commit _ => False
  | .listRanges n applied => n = nodeId → f.log.length ≤ applied
  | .reconcile n host => n = nodeId → ∀ d, host.opens d = true
  | .restart n => n ≠ nodeId

/-- What the log has to meet for its ranges to fit beside each other on a node: counters do not
overflow, splits find fresh group ids, dissolved ranges are not created again, and no range but the
default one has its group. -/
structure Orderly (log : List PdCommand) : Prop where
  along : Run.Along step (fun c cmd => NoOverflow c cmd ∧ SplitGroupFresh c cmd) new log
  reuse : Pd.Catalog.NoReuse log
  default : ∀ i d, (after log).ranges[i]? = some d → i ≠ defaultRangeId →
    d.raftGroupId ≠ defaultRangeId

theorem Orderly.noOverflow {log : List PdCommand} (h : Orderly log) :
    Run.Along step NoOverflow new log := h.along.imp fun _ _ hcmd => hcmd.1

/-- The node and its turns, while the answers are the list `l`. -/
structure Progress (nodeId : NodeId) (l : List RangeDescriptor) (f : Fleet) (turns : ℕ) : Prop where
  clean : 2 ≤ turns → Clean nodeId l skipLocalRanges (f.dirs nodeId)
  opened : 4 ≤ turns → ∀ d, Assigned nodeId l skipLocalRanges d →
    (f.dirs nodeId).getRange d.rangeId ≠ none
  fresh : 1 ≤ turns → ∀ l', f.fetched nodeId = some l' → l' = l
  waiting : turns % 2 = 1 → f.fetched nodeId = some l

section

variable {nodeId : NodeId} {l : List RangeDescriptor} {turns : ℕ}

/-- The ranges of the list fit beside whatever a node runs. -/
theorem Inv.fits (h : Inv f) (hlog : Orderly f.log) (hl : (after f.log).iterRangesByStart = some l)
    (nodeId : NodeId) : GroupsFit nodeId l skipLocalRanges (f.dirs nodeId) := by
  obtain ⟨hsound, hgroups⟩ := Pd.Catalog.sound_groupExact_after hlog.along
  obtain ⟨l', hl', -, hmem⟩ := listing hsound
  obtain rfl := Option.some.inj (hl.symm.trans hl')
  have hlive : ∀ d, Assigned nodeId l skipLocalRanges d →
      (after f.log).ranges[d.rangeId]? = some d := fun d hd => (hmem d).mp hd.1
  constructor
  · intro d e hd he hg
    exact (hgroups.groupInvariant hsound.routed).unique _ _ d e (hlive d hd) (hlive e he) hg
  · intro d hd i hi r hr hg
    rw [mem_skipLocalRanges.mp hi, h.default] at hr
    obtain rfl := Option.some.inj hr
    exact hlog.default d.rangeId d (hlive d hd) (fun he => hd.2.2 (mem_skipLocalRanges.mpr he))
      hg.symm
  · intro d hd r hr
    have hne : d.rangeId ≠ defaultRangeId := fun he => hd.2.2 (mem_skipLocalRanges.mpr he)
    obtain ⟨hid, p, hp, hr', -⟩ := h.hosted nodeId _ r hne hr
    have hid' : r.descriptor.rangeId = d.rangeId := hid
    rw [hid'] at hr'
    exact Pd.Catalog.group_kept hlog.noOverflow hlog.reuse hp hr' (hlive d hd)

/-- A fresh pass cleans up, and after that opens everything. -/
theorem Progress.tick (h : Progress nodeId l f turns) (hids : (l.map (·.rangeId)).Nodup)
    {host : Host} (hopen : ∀ d, host.opens d = true)
    (hfit : GroupsFit nodeId l skipLocalRanges (f.dirs nodeId)) {turns' : ℕ}
    (hnext : turns' ≤ turns + 1) (heven : turns' % 2 = 0) :
    Progress nodeId l
      (f.setNode nodeId none (Cluster.tick host nodeId l skipLocalRanges (f.dirs nodeId)))
      turns' where
  clean _ := by
    rw [dirs_setNode, if_pos rfl]
    exact tick_clean host nodeId hids
  opened h4 d hd := by
    rw [dirs_setNode, if_pos rfl]
    exact tick_opens host nodeId hopen hids hfit (h.clean (by omega)) hd
  fresh _ l' hl' := by
    rw [fetched_setNode, if_pos rfl] at hl'
    cases hl'
  waiting hodd := by omega

theorem Progress.apply (h : Progress nodeId l f turns) (hinv : Inv f) (hlog : Orderly f.log)
    (hl : (after f.log).iterRangesByStart = some l) {e : Event} (hquiet : Quiet nodeId f e) :
    Progress nodeId l (f.apply e) (turn nodeId turns e) := by
  have hids : (l.map (·.rangeId)).Nodup :=
    (listed_spec hlog.noOverflow ⟨_, List.prefix_refl _, hl⟩).1
  -- What happens on another node does not concern this one.
  have hother : ∀ n, n ≠ nodeId → ∀ answer dir,
      Progress nodeId l (f.setNode n answer dir) turns := by
    intro n hn answer dir
    have hdir : (f.setNode n answer dir).dirs nodeId = f.dirs nodeId := by
      rw [dirs_setNode, if_neg hn.symm]
    have hfetched : (f.setNode n answer dir).fetched nodeId = f.fetched nodeId := by
      rw [fetched_setNode, if_neg hn.symm]
    exact ⟨hdir ▸ h.clean, hdir ▸ h.opened, hfetched ▸ h.fresh, hfetched ▸ h.waiting⟩
  cases e with
  | commit cmd => exact absurd hquiet id
  | restart n => exact hother n hquiet _ _
  | listRanges n applied =>
      by_cases hn : n = nodeId
      · subst hn
        have hanswer : (after (f.log.take applied)).iterRangesByStart = some l := by
          rw [List.take_of_length_le (hquiet rfl), hl]
        have hfetched : (f.apply (.listRanges n applied)).fetched n = some l := by
          rw [Fleet.apply, fetched_setNode, if_pos rfl, hanswer]
        have hdir : (f.apply (.listRanges n applied)).dirs n = f.dirs n := by
          rw [Fleet.apply, dirs_setNode, if_pos rfl]
        have hturn : ∀ k, k % 2 = 0 → k ≤ turn n turns (.listRanges n applied) → k ≤ turns := by
          intro k hk hle
          rw [turn] at hle
          split_ifs at hle <;> omega
        refine ⟨fun h2 => ?_, fun h4 => ?_, fun _ l' hl' => ?_, fun _ => hfetched⟩
        · rw [hdir]
          exact h.clean (hturn 2 rfl h2)
        · rw [hdir]
          exact h.opened (hturn 4 rfl h4)
        · rw [hfetched] at hl'
          exact (Option.some.inj hl').symm
      · rw [turn, if_neg fun hc => hn hc.1]
        exact hother n hn _ _
  | reconcile n host =>
      rw [Fleet.apply]
      by_cases hn : n = nodeId
      · subst hn
        have hopen : ∀ d, host.opens d = true := hquiet rfl
        have hfit := hinv.fits hlog hl n
        cases hwait : f.fetched n with
        | none =>
            have heven : ¬ turns % 2 = 1 := fun hodd => by
              rw [h.waiting hodd] at hwait
              cases hwait
            rw [turn, if_neg fun hc => heven hc.2]
            exact h
        | some l' =>
            rw [turn]
            by_cases hodd : turns % 2 = 1
            · obtain rfl := Option.some.inj ((h.waiting hodd).symm.trans hwait)
              rw [if_pos ⟨rfl, hodd⟩]
              exact h.tick hids hopen hfit le_rfl (by omega)
            · rw [if_neg fun hc => hodd hc.2]
              by_cases hzero : turns = 0
              · subst hzero
                exact ⟨by omega, by omega, by omega, by omega⟩
              · obtain rfl := h.fresh (by omega) l' hwait
                exact h.tick hids hopen hfit (by omega) (by omega)
      · rw [turn, if_neg fun hc => hn hc.1]
        cases f.fetched n with
        | none => exact h
        | some l' => exact hother n hn _ _

theorem log_quiet {e : Event} (h : Quiet nodeId f e) : (f.apply e).log = f.log := by
  cases e with
  | commit cmd => exact absurd h id
  | reconcile n host =>
      rw [Fleet.apply]
      cases f.fetched n <;> rfl
  | _ => rfl

theorem Progress.run (h : Progress nodeId l f turns) (hinv : Inv f) (hlog : Orderly f.log)
    (hl : (after f.log).iterRangesByStart = some l) {tail : List Event}
    (hquiet : Run.Along Fleet.apply (Quiet nodeId) f tail) :
    (Run.run Fleet.apply f tail).log = f.log ∧
      Progress nodeId l (Run.run Fleet.apply f tail) (tail.foldl (turn nodeId) turns) := by
  induction tail generalizing f turns with
  | nil => exact ⟨rfl, h⟩
  | cons e tail ih =>
      have hsame : (f.apply e).log = f.log := log_quiet hquiet.1
      obtain ⟨hlog', hprogress⟩ := ih (h.apply hinv hlog hl hquiet.1)
        (hinv.apply hlog.noOverflow e) (by rwa [hsame]) (by rwa [hsame]) hquiet.2
      exact ⟨hlog'.trans hsame, hprogress⟩

end

/-! ### The results -/

/-- The node runs what the catalog assigns to it, under the group ids of the catalog: a key that is
routed to a range finds its group on the node exactly when the node is a replica. -/
structure Converged (f : Fleet) (nodeId : NodeId) : Prop where
  hosted : ∀ i, i ≠ defaultRangeId → ((f.dirs nodeId).getRange i ≠ none ↔
    ∃ d, (after f.log).ranges[i]? = some d ∧ assignedTo nodeId d = true)
  routed : ∀ key d, (after f.log).findRangeForKey key = some d → d.rangeId ≠ defaultRangeId →
    ((∃ r, (f.dirs nodeId).getGroup d.raftGroupId = some r ∧ r.rangeId = d.rangeId) ↔
      assignedTo nodeId d = true)
  default : (f.dirs nodeId).getRange defaultRangeId = some (defaultRange nodeId)
  idle : ∀ l, (after f.log).iterRangesByStart = some l →
    (tickPlan nodeId l skipLocalRanges (f.dirs nodeId)).isEmpty = true

theorem Progress.converged {nodeId : NodeId} {l : List RangeDescriptor} {turns : ℕ}
    (h : Progress nodeId l f turns) (hturns : 4 ≤ turns) (hinv : Inv f) (hlog : Orderly f.log)
    (hl : (after f.log).iterRangesByStart = some l) : Converged f nodeId := by
  have hsound := (Pd.Catalog.sound_groupExact_after hlog.along).1
  obtain ⟨l', hl', hids, hmem⟩ := listing hsound
  obtain rfl := Option.some.inj (hl.symm.trans hl')
  have hclean := h.clean (by omega)
  have hopened := h.opened hturns
  have hfit := hinv.fits hlog hl nodeId
  have hassigned : ∀ i d, i ≠ defaultRangeId → (after f.log).ranges[i]? = some d →
      assignedTo nodeId d = true → d.rangeId = i ∧ Assigned nodeId l skipLocalRanges d := by
    intro i d hi hd hnode
    have hid := hsound.routed.keyed i d hd
    refine ⟨hid, (hmem d).mpr (by rw [hid]; exact hd), hnode, ?_⟩
    rw [mem_skipLocalRanges, hid]
    exact hi
  have hhosted : ∀ i, i ≠ defaultRangeId → ((f.dirs nodeId).getRange i ≠ none ↔
      ∃ d, (after f.log).ranges[i]? = some d ∧ assignedTo nodeId d = true) := by
    intro i hi
    constructor
    · intro hne
      rcases hclean i hne with hs | ⟨d, hd, hnode, rfl⟩
      · exact absurd (mem_skipLocalRanges.mp hs) hi
      · exact ⟨d, (hmem d).mp hd, hnode⟩
    · rintro ⟨d, hd, hnode⟩
      obtain ⟨rfl, hd'⟩ := hassigned i d hi hd hnode
      exact hopened d hd'
  refine ⟨hhosted, ?_, hinv.default nodeId, ?_⟩
  · intro key d hkey hi
    obtain ⟨id, hd, -⟩ := hsound.routed.findRangeForKey_eq_some_iff.mp hkey
    obtain rfl := hsound.routed.keyed id d hd
    constructor
    · rintro ⟨r, hr, hid⟩
      have hrange : (f.dirs nodeId).getRange d.rangeId = some r := by
        rw [← hid]
        exact ((f.dirs nodeId).group_exact _ r hr).2
      obtain ⟨e, he, hnode⟩ := (hhosted d.rangeId hi).mp (by
        rw [hrange]
        exact Option.some_ne_none r)
      rw [hd] at he
      rwa [Option.some.inj he]
    · intro hnode
      have hd' := (hassigned d.rangeId d hi hd hnode).2
      obtain ⟨r, hr⟩ := Option.ne_none_iff_exists'.mp (hopened d hd')
      obtain ⟨hid, hgroup⟩ := (f.dirs nodeId).range_exact _ r hr
      rw [hfit.agree d hd' r hr] at hgroup
      exact ⟨r, hgroup, hid⟩
  · intro l' hl''
    obtain rfl := Option.some.inj (hl.symm.trans hl'')
    exact tickPlan_isEmpty hids hclean hopened

/-- **The fleet converges.**  After any events, however commands, answers of lagging members, passes
(with opens that fail) and restarts have been interleaved: once nothing is committed any more, the
answers are up to date and the opens go well, a node that has asked and applied twice runs what the
catalog assigns to it. -/
theorem fleet_converges (nodeId : NodeId) (events tail : List Event)
    (hlog : Orderly (run events).log)
    (hquiet : Run.Along Fleet.apply (Quiet nodeId) (run events) tail)
    (hrounds : 2 ≤ rounds nodeId tail) : Converged (run (events ++ tail)) nodeId := by
  have hinv := inv_run hlog.noOverflow
  obtain ⟨l, hl, -⟩ := listing (Pd.Catalog.sound_after hlog.noOverflow)
  have hstart : Progress nodeId l (run events) 0 := ⟨by omega, by omega, by omega, by omega⟩
  obtain ⟨hsame, hprogress⟩ := hstart.run hinv hlog hl hquiet
  have hrun : run (events ++ tail) = Run.run Fleet.apply (run events) tail :=
    Run.run_append _ _ _ _
  rw [← hrun] at hsame hprogress
  have hlog' : Orderly (run (events ++ tail)).log := by rwa [hsame]
  refine hprogress.converged ?_ (inv_run hlog'.noOverflow) hlog' (by rwa [hsame])
  unfold rounds at hrounds
  omega

/-- **No node runs what it was never assigned**, whatever the interleaving: beside its default
range, a range that is open on a node was opened from a descriptor that the catalog held at some
time and that names the node, and it stays open until the node restarts or applies the answer of a
member that did not assign it. -/
theorem fleet_safe (events : List Event)
    (ho : Run.Along step NoOverflow new (run events).log) (nodeId : NodeId) (i : RangeId)
    (r : RangeRuntime) (hi : i ≠ defaultRangeId)
    (hr : ((run events).dirs nodeId).getRange i = some r) :
    WasAssigned (run events).log nodeId r.descriptor ∧
      ∀ e, (((run events).apply e).dirs nodeId).getRange i = some r ∨
        e = .restart nodeId ∨ (∃ host, e = .reconcile nodeId host) ∧
          ∃ p, p <+: (run events).log ∧
            ∀ d, (after p).ranges[i]? = some d → assignedTo nodeId d = false := by
  have hinv := inv_run ho
  refine ⟨(hinv.hosted nodeId i r hi hr).2, fun e => ?_⟩
  generalize run events = f at *
  cases e with
  | commit cmd => exact Or.inl hr
  | listRanges n applied =>
      rw [Fleet.apply, dirs_setNode]
      split_ifs with hn
      · rw [← hn, hr]
        exact Or.inl rfl
      · exact Or.inl hr
  | restart n =>
      rw [Fleet.apply, dirs_setNode]
      split_ifs with hn
      · exact Or.inr (Or.inl (by rw [hn]))
      · exact Or.inl hr
  | reconcile n host =>
      rw [Fleet.apply]
      cases hl : f.fetched n with
      | none => exact Or.inl hr
      | some l =>
          by_cases hn : nodeId = n
          · subst hn
            dsimp only
            rw [dirs_setNode, if_pos rfl]
            obtain ⟨p, hp, hlist⟩ := hinv.fetched nodeId l hl
            have hids := (listed_spec ho ⟨p, hp, hlist⟩).1
            by_cases hwanted : Wanted nodeId l i
            · exact Or.inl (tick_keeps host nodeId hids hr (Or.inr hwanted))
            · refine Or.inr (Or.inr ⟨⟨host, rfl⟩, p, hp, fun d hd => ?_⟩)
              obtain ⟨l', hl', -, hmem⟩ := listing (Pd.Catalog.sound_after (ho.upto hp))
              obtain rfl := Option.some.inj (hlist.symm.trans hl')
              have hid := (Pd.Catalog.routed_after p).keyed i d hd
              by_contra hnode
              rw [Bool.not_eq_false] at hnode
              exact hwanted ⟨d, (hmem d).mpr (by rw [hid]; exact hd), hnode, hid⟩
          · dsimp only
            rw [dirs_setNode, if_neg hn]
            exact Or.inl hr

/-- Hosts on which everything goes well, and on which every open fails. -/
def goodHost : Host := ⟨fun _ => true, fun _ => .done⟩

def failingHost : Host := ⟨fun _ => false, fun _ => .done⟩

/-- A range of node 7 is split while the node is asking, and its left half moves to node 8; the
opens of a first pass fail. -/
def splitEvents : List Event :=
  [.commit (.createRange (.new 2 [] [] [.voter 7 1])), .listRanges 7 1, .reconcile 7 failingHost,
    .listRanges 7 1, .commit (.splitRange 2 [109]), .commit (.updateMembership 2 [.voter 8 1] 1)]

theorem splitEvents_orderly : Orderly (run splitEvents).log where
  along := by decide +kernel
  reuse := by
    intro p desc hp _
    have hlog : (run splitEvents).log = [.createRange (.new 2 [] [] [.voter 7 1]),
        .splitRange 2 [109], .updateMembership 2 [.voter 8 1] 1] := by decide +kernel
    rw [hlog] at hp
    have hnil : p = [] := by
      match p, hp with
      | [], _ => rfl
      | [_], hp => simp at hp
      | [_, _], hp => simp at hp
      | _ :: _ :: _ :: _, hp => simp at hp
    rw [hnil]
    simp [retired]
  default i d hd hi := by
    have hall : ∀ e ∈ (after (run splitEvents).log).ranges.values,
        e.raftGroupId ≠ defaultRangeId := by decide +kernel
    exact hall d ((OrdMap.mem_values _ _).mpr ⟨i, hd⟩)

/-- Node 7 still applies its old answer, and ends with the right half alone. -/
theorem fleet_converges_split :
    Converged (run (splitEvents ++ [.reconcile 7 goodHost, .listRanges 7 3, .reconcile 7 goodHost,
      .restart 8, .listRanges 7 3, .reconcile 8 failingHost, .reconcile 7 goodHost])) 7 :=
  fleet_converges 7 splitEvents _ splitEvents_orderly
    ⟨fun _ _ => rfl, fun _ => by decide +kernel, fun _ _ => rfl, (by decide : (8 : NodeId) ≠ 7),
      fun _ => by decide +kernel, fun h => absurd h (by decide), fun _ _ => rfl, trivial⟩
    (by decide)

/-- Before that it runs the range that it is told about. -/
theorem fleet_safe_split :
    WasAssigned (run (splitEvents ++ [.reconcile 7 goodHost])).log 7 (.new 2 [] [] [.voter 7 1]) :=
  (fleet_safe (splitEvents ++ [.reconcile 7 goodHost]) (by decide +kernel) 7 2
    ⟨.new 2 [] [] [.voter 7 1]⟩ (by decide) (by decide +kernel)).1

end Fleet

end AresaDb.Cluster
