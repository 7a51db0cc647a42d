import AresaDb.Pd.Replication

/-! # Round trip of a snapshot

A replica builds a snapshot with nothing else going on, and another one installs it.  The receiver
ends as a copy of the sender (`CopyOf`): it holds the sender's ranges, nodes, routing, counter and
meta, its backend holds the rows of these and none of its own, and opening that backend gives the
ranges and nodes again.

This works out exactly when the sender's catalog is `Portable`.  The snapshot lists the ranges
along the start-key index, which panics on an entry that names no range; and the receiver derives
its counter as the larger of the sender's and one past the live ids, so that a sender whose counter
is behind a live id gets a copy with another counter.  Neither happens on a run without counter
overflow (`portable_after`). -/

namespace AresaDb.Pd

open ByteOrder AresaDb.Core Catalog PdRaftStateMachine

variable {K : PdCodec} {peer sm : PdRaftStateMachine}

/-- A replica that holds what another one holds, in memory and on disk, and nothing else. -/
structure CopyOf (K : PdCodec) (peer sm : PdRaftStateMachine) : Prop where
  ranges : sm.inner.catalog.ranges = peer.inner.catalog.ranges
  nodes : sm.inner.catalog.nodes = peer.inner.catalog.nodes
  nextRangeId : sm.inner.catalog.nextRangeId = peer.inner.catalog.nextRangeId
  findRangeForKey : ∀ key,
    sm.inner.catalog.findRangeForKey key = peer.inner.catalog.findRangeForKey key
  lastApplied : sm.pdMeta.lastApplied = peer.pdMeta.lastApplied
  lastMembership : sm.pdMeta.lastMembership = peer.pdMeta.lastMembership
  stored : Stored K peer.inner.catalog.ranges peer.inner.catalog.nodes (some peer.pdMeta)
    sm.inner.data.rows
  reopened : ∃ sm', open_ K sm.inner.data = .ok sm' ∧
    sm'.inner.catalog.ranges = peer.inner.catalog.ranges ∧
    sm'.inner.catalog.nodes = peer.inner.catalog.nodes

/-- The snapshot that `peer` builds makes `sm` a copy of it. -/
def RoundTrips (K : PdCodec) (peer sm : PdRaftStateMachine) : Prop :=
  ∃ snapshot sm', peer.buildSnapshot K = .ok snapshot ∧ sm.installSnapshot K snapshot = .ok sm' ∧
    CopyOf K peer sm'

/-- A catalog that a snapshot can carry: its start-key index names live ranges only, and its
counter is past every live id. -/
structure Portable (c : Catalog) : Prop where
  startLive : c.StartLive
  counter : c.idCeiling ≤ c.nextRangeId

/-! ### Building -/

theorem mem_isSome_of_mapM {α β : Type} {f : α → Option β} {l : List α} {ys : List β}
    (h : l.mapM f = some ys) : ∀ x ∈ l, ∃ y, f x = some y := by
  induction l generalizing ys with
  | nil => simp
  | cons x l ih =>
      rw [List.mapM_cons, Option.bind_eq_bind, Option.bind_eq_some_iff] at h
      obtain ⟨y, hy, hrest⟩ := h
      obtain ⟨zs, hzs, _⟩ := Option.bind_eq_some_iff.mp hrest
      intro z hz
      rcases List.mem_cons.mp hz with rfl | hz
      · exact ⟨y, hy⟩
      · exact ih hzs z hz

/-- A snapshot that is built lists the ranges, so no index entry is dangling. -/
theorem startLive_of_buildSnapshot {snapshot : Bytes} (h : peer.buildSnapshot K = .ok snapshot) :
    peer.inner.catalog.StartLive := by
  unfold buildSnapshot snapshotPayload at h
  cases hl : peer.inner.catalog.iterRangesByStart with
  | none => simp [hl] at h
  | some l => exact mem_isSome_of_mapM hl

/-! ### Installing -/

/-- **What the receiver ends with**: the sender's catalog hydrated from its ranges and nodes, the
sender's meta, and their rows. -/
theorem install_built (hr : peer.inner.catalog.Routed) (hn : peer.inner.catalog.NodesKeyed)
    (hlive : peer.inner.catalog.StartLive) (sm : PdRaftStateMachine) :
    ∃ snapshot sm' l ns, peer.buildSnapshot K = .ok snapshot ∧
      sm.installSnapshot K snapshot = .ok sm' ∧
      OrdMap.Lists l peer.inner.catalog.ranges ∧ OrdMap.Lists ns peer.inner.catalog.nodes ∧
      sm'.inner.catalog = load l ns peer.inner.catalog.nextRangeId ∧ sm'.pdMeta = peer.pdMeta ∧
      ∀ ranges nodes m, Stored K ranges nodes m sm.inner.data.rows →
        Stored K peer.inner.catalog.ranges peer.inner.catalog.nodes (some peer.pdMeta)
          sm'.inner.data.rows := by
  obtain ⟨payload, hpayload, hlast, hmem, hnext, hl, hns⟩ :=
    snapshotPayload_lists hr hlive peer.pdMeta
  obtain ⟨data, hinstall, hstored⟩ := installSnapshot_stored (K := K) sm hr hn hl hns
  rw [hlast, hmem] at hinstall hstored
  rw [hnext] at hinstall
  refine ⟨K.payload.encode payload, _, payload.ranges, payload.nodes, ?_, hinstall, hl, hns, rfl,
    rfl, hstored⟩
  unfold buildSnapshot
  rw [hpayload]

/-- The same of a build and an install that went through. -/
theorem installed_built {sm' : PdRaftStateMachine} {snapshot : Bytes}
    (hr : peer.inner.catalog.Routed) (hn : peer.inner.catalog.NodesKeyed)
    (hbuild : peer.buildSnapshot K = .ok snapshot)
    (hinstall : sm.installSnapshot K snapshot = .ok sm') :
    ∃ l ns, OrdMap.Lists l peer.inner.catalog.ranges ∧ OrdMap.Lists ns peer.inner.catalog.nodes ∧
      sm'.inner.catalog = load l ns peer.inner.catalog.nextRangeId ∧ sm'.pdMeta = peer.pdMeta ∧
      ∀ ranges nodes m, Stored K ranges nodes m sm.inner.data.rows →
        Stored K peer.inner.catalog.ranges peer.inner.catalog.nodes (some peer.pdMeta)
          sm'.inner.data.rows := by
  obtain ⟨snapshot', sm'', l, ns, hbuild', hinstall', hfacts⟩ :=
    install_built (K := K) hr hn (startLive_of_buildSnapshot hbuild) sm
  rw [hbuild] at hbuild'
  obtain rfl := Except.ok.inj hbuild'
  rw [hinstall] at hinstall'
  obtain rfl := Except.ok.inj hinstall'
  exact ⟨l, ns, hfacts⟩

theorem load_nextRangeId {c : Catalog} {l : List RangeDescriptor} (hl : OrdMap.Lists l c.ranges)
    (ns : List NodeInfo) (hint : RangeId) :
    (load l ns hint).nextRangeId = max c.idCeiling hint := by
  rw [load_fields, idCeiling_eq hl]

/-- The receiver's counter is past every live id, so a sender whose counter is not has no copy. -/
theorem RoundTrips.counter (hr : peer.inner.catalog.Routed) (hn : peer.inner.catalog.NodesKeyed)
    (h : RoundTrips K peer sm) :
    peer.inner.catalog.idCeiling ≤ peer.inner.catalog.nextRangeId := by
  obtain ⟨snapshot, sm', hbuild, hinstall, hcopy⟩ := h
  obtain ⟨l, ns, hl, _, hcat, _⟩ := installed_built hr hn hbuild hinstall
  have hnext := hcopy.nextRangeId
  rw [hcat, load_nextRangeId hl] at hnext
  exact max_eq_right_iff.mp hnext

/-- A portable catalog arrives, whatever the receiver held before. -/
theorem Portable.roundTrips (h : Portable peer.inner.catalog) (hr : peer.inner.catalog.Routed)
    (hn : peer.inner.catalog.NodesKeyed) {ranges : OrdMap RangeId RangeDescriptor}
    {nodes : OrdMap NodeId NodeInfo} {m : Option PersistedPdMeta}
    (hsm : Stored K ranges nodes m sm.inner.data.rows) : RoundTrips K peer sm := by
  obtain ⟨snapshot, sm', l, ns, hbuild, hinstall, hl, hns, hcat, hmeta, hstored⟩ :=
    install_built (K := K) hr hn h.startLive sm
  have hrows := hstored ranges nodes m hsm
  obtain ⟨l', ns', hl', hns', hopen⟩ := open_stored hrows
  refine ⟨snapshot, sm', hbuild, hinstall, ?_⟩
  exact {
    ranges := by rw [hcat, load_ranges hr hl]
    nodes := by rw [hcat, load_nodes hn hns]
    nextRangeId := by rw [hcat, load_nextRangeId hl, max_eq_right h.counter]
    findRangeForKey := by
      intro key
      rw [hcat, load_findRangeForKey hr hl]
    lastApplied := by rw [hmeta]
    lastMembership := by rw [hmeta]
    stored := hrows
    reopened := ⟨_, hopen, load_ranges hr hl', load_nodes hn hns'⟩ }

/-! ### The round trip -/

/-- A run without counter overflow leaves a catalog that a snapshot can carry. -/
theorem portable_after {cmds : List PdCommand} (h : Run.Along step NoOverflow new cmds) :
    Portable (after cmds) where
  startLive := (sound_after h).startExact.live
  counter := (sound_after h).idCeiling_le

/-- **Round trip of a snapshot**: whatever commands made the sender's catalog, whatever its meta is
and whatever ranges, nodes and meta the receiver holds on disk and in memory, the receiver becomes a
copy of the sender exactly when the sender's catalog is portable. -/
theorem roundTrips_iff (K : PdCodec) (cmds : List PdCommand) (peer sm : PdRaftStateMachine)
    (hpeer : peer.inner.catalog = after cmds) (ranges : OrdMap RangeId RangeDescriptor)
    (nodes : OrdMap NodeId NodeInfo) (m : Option PersistedPdMeta)
    (hsm : Stored K ranges nodes m sm.inner.data.rows) :
    RoundTrips K peer sm ↔ Portable (after cmds) := by
  have hr : peer.inner.catalog.Routed := by
    rw [hpeer]
    exact routed_after cmds
  have hn : peer.inner.catalog.NodesKeyed := by
    rw [hpeer]
    exact nodesKeyed_after cmds
  rw [← hpeer]
  constructor
  · intro h
    obtain ⟨snapshot, _, hbuild, _⟩ := id h
    exact ⟨startLive_of_buildSnapshot hbuild, h.counter hr hn⟩
  · intro h
    exact h.roundTrips hr hn hsm

/-- The replica that applied a list of commands as the first entries of its log. -/
def replicaAfter (cmds : List PdCommand) : PdRaftStateMachine :=
  (PdRaftStateMachine.fresh.apply bincode
    (cmds.mapIdx fun i cmd => logEntry (UInt64.ofNat i) cmd)).2

theorem replicaAfter_stored (cmds : List PdCommand) :
    ∃ ranges nodes m, Stored bincode ranges nodes m (replicaAfter cmds).inner.data.rows := by
  obtain ⟨m, _, hs⟩ := ((tracks_fresh (K := bincode)).apply
    (cmds.mapIdx fun i cmd => logEntry (UInt64.ofNat i) cmd)).stored_all
  exact ⟨_, _, m, hs⟩

/-- A replica with a range and a node of its own is caught up by one that has split the key
space. -/
theorem roundTrips_after_split :
    RoundTrips bincode (replicaAfter [.createRange (.new 1 [] [] []), .splitRange 1 [109]])
      (replicaAfter [.createRange (.new 2 [97] [] []), .registerNode ⟨5, "n5", [1], 0⟩]) := by
  have hpeer : (replicaAfter [.createRange (.new 1 [] [] []), .splitRange 1 [109]]).inner.catalog =
      after [.createRange (.new 1 [] [] []), .splitRange 1 [109]] := by decide +kernel
  obtain ⟨ranges, nodes, m, hs⟩ := replicaAfter_stored
    [.createRange (.new 2 [97] [] []), .registerNode ⟨5, "n5", [1], 0⟩]
  rw [roundTrips_iff bincode _ _ _ hpeer ranges nodes m hs]
  exact portable_after (by decide +kernel)

/-- The split allocates the last id and the counter wraps to 0; the receiver derives a counter from
the live ids instead. -/
theorem not_roundTrips_wrapped :
    ¬ RoundTrips bincode
      (replicaAfter [.createRange (.new (u64Max - 1) [] [] []), .splitRange (u64Max - 1) [109]])
      .fresh := by
  intro h
  have hpeer : (replicaAfter [.createRange (.new (u64Max - 1) [] [] []),
      .splitRange (u64Max - 1) [109]]).inner.catalog =
      after [.createRange (.new (u64Max - 1) [] [] []), .splitRange (u64Max - 1) [109]] := by
    decide +kernel
  have hcounter := h.counter (by rw [hpeer]; exact routed_after _)
    (by rw [hpeer]; exact nodesKeyed_after _)
  rw [hpeer] at hcounter
  exact absurd hcounter (by decide +kernel)

end AresaDb.Pd
