import AresaDb.Pd.CatalogRuns
import AresaDb.Pd.Durability

/-! # Agreement of replicas

Replicas of the placement driver process one Raft log.  Between entries a replica may be restarted
on its own backend, or caught up with a snapshot that another replica built.  `Reached` is the set
of replicas that can come about this way, with the responses each one has given.

Applying an entry is deterministic, so replicas agree as long as restarts and snapshots give the
catalog back unchanged.  A snapshot carries the id counter and a restart does not: it derives the
counter from the live ranges, and loses an id that was allocated and merged away.  The indexes are
rebuilt in both cases.  `RestartSafe` and `SnapshotSafe` say when nothing is lost; `replicas_agree`
is agreement over all runs whose restarts and snapshots are safe, and `replicas_disagree` is a log
on which one restart at the wrong moment is enough. -/

namespace AresaDb.Pd

open ByteOrder AresaDb.Core Catalog PdRaftStateMachine

/-- A Raft log: the entry at position `i` carries index `i`. -/
structure RaftLog where
  entries : List Entry
  indexed : ∀ (i : ℕ) (e : Entry), entries[i]? = some e → e.logId.index.toNat = i

/-- Conditions on the catalog of a replica that is restarted, and of a replica that builds a
snapshot. -/
structure Guard where
  restart : Catalog → Prop
  snapshot : Catalog → Prop

/-- No condition. -/
def Guard.none : Guard := ⟨fun _ => True, fun _ => True⟩

/-- The replicas of a log, with the responses they have given by log index. -/
inductive Reached (K : PdCodec) (L : RaftLog) (G : Guard) :
    PdRaftStateMachine → (ℕ → Option PdResponse) → Prop
  | fresh : Reached K L G .fresh (fun _ => Option.none)
  | apply {sm sm' : PdRaftStateMachine} {given : ℕ → Option PdResponse} {e : Entry}
      {resp : PdResponse} (h : Reached K L G sm given)
      (he : L.entries[sm.nextIndex]? = some e) (happly : sm.apply K [e] = (.ok [resp], sm')) :
      Reached K L G sm' (Function.update given sm.nextIndex (some resp))
  | restart {sm sm' : PdRaftStateMachine} {given : ℕ → Option PdResponse}
      (h : Reached K L G sm given) (hsafe : G.restart sm.inner.catalog)
      (hopen : open_ K sm.inner.data = .ok sm') : Reached K L G sm' given
  | install {sm sm' peer : PdRaftStateMachine} {given given' : ℕ → Option PdResponse}
      {snapshot : Bytes} (h : Reached K L G sm given) (hpeer : Reached K L G peer given')
      (hpos : sm.nextIndex ≤ peer.nextIndex) (hsafe : G.snapshot peer.inner.catalog)
      (hbuild : peer.buildSnapshot K = .ok snapshot)
      (hinstall : sm.installSnapshot K snapshot = .ok sm') : Reached K L G sm' given

/-- Both indexes are those of the live ranges. -/
def IndexesExact (c : Catalog) : Prop := c.StartExact ∧ c.GroupExact

/-- A restart gives the catalog back: its indexes are exact and its counter is one past the highest
live id. -/
def RestartSafe (c : Catalog) : Prop := IndexesExact c ∧ c.nextRangeId = c.idCeiling

/-- A snapshot gives the catalog back: its indexes are exact and its counter is past every live
id. -/
def SnapshotSafe (c : Catalog) : Prop := IndexesExact c ∧ c.idCeiling ≤ c.nextRangeId

/-- Restarts and snapshots that lose nothing. -/
def Guard.safe : Guard := ⟨RestartSafe, SnapshotSafe⟩

variable {K : PdCodec} {L : RaftLog} {G : Guard}

/-! ### Single moves -/

/-- A replica whose rows are those of its catalog and meta. -/
structure Backed (K : PdCodec) (sm : PdRaftStateMachine) : Prop where
  stored : ∃ m : Option PersistedPdMeta, m.getD .default = sm.pdMeta ∧
    Stored K sm.inner.catalog.ranges sm.inner.catalog.nodes m sm.inner.data.rows
  routed : sm.inner.catalog.Routed
  nodesKeyed : sm.inner.catalog.NodesKeyed

theorem backed_fresh : Backed K .fresh := ⟨⟨none, rfl, stored_empty⟩, routed_new, nodesKeyed_new⟩

/-- What applying an entry does to a replica. -/
theorem Backed.of_applyEntry {sm sm' : PdRaftStateMachine} (h : Backed K sm) {e : Entry}
    {resp : PdResponse} (happly : sm.applyEntry K e = (.ok resp, sm')) :
    sm.inner.catalog.answer e = some resp ∧ Backed K sm' ∧
      sm'.inner.catalog = sm.inner.catalog.stepEntry e ∧ sm'.pdMeta = entryMeta sm.pdMeta e := by
  obtain ⟨m, _, hs⟩ := h.stored
  cases ha : sm.inner.catalog.answer e with
  | none => simp [applyEntry_panic ha] at happly
  | some r =>
      obtain ⟨batch, hentry, hmoves⟩ := applyEntry_ok (K := K) h.routed h.nodesKeyed ha
      simp only [hentry, Prod.mk.injEq, Except.ok.injEq] at happly
      obtain ⟨rfl, rfl⟩ := happly
      refine ⟨rfl, ?_, rfl, rfl⟩
      refine ⟨⟨some _, rfl, ?_⟩, h.routed.stepEntry e, h.nodesKeyed.stepEntry h.routed e⟩
      rw [Backend.rows_writeBatch]
      exact hmoves m _ hs

theorem apply_singleton {sm sm' : PdRaftStateMachine} {e : Entry} {resp : PdResponse} :
    sm.apply K [e] = (.ok [resp], sm') ↔ sm.applyEntry K e = (.ok resp, sm') := by
  unfold PdRaftStateMachine.apply
  cases h : sm.applyEntry K e with
  | mk out after =>
      cases out with
      | error f => simp
      | ok r => simp [PdRaftStateMachine.apply, Except.map]

/-- What applying the next entry does to a replica. -/
theorem Backed.of_apply {sm sm' : PdRaftStateMachine} (h : Backed K sm) {e : Entry}
    {resp : PdResponse} (happly : sm.apply K [e] = (.ok [resp], sm')) :
    sm.inner.catalog.answer e = some resp ∧ Backed K sm' ∧
      sm'.inner.catalog = sm.inner.catalog.stepEntry e ∧ sm'.pdMeta = entryMeta sm.pdMeta e :=
  h.of_applyEntry (apply_singleton.mp happly)

/-- An entry that does not panic is applied. -/
theorem Backed.apply_ok {sm : PdRaftStateMachine} (h : Backed K sm) {e : Entry} {resp : PdResponse}
    (ha : sm.inner.catalog.answer e = some resp) : ∃ sm', sm.apply K [e] = (.ok [resp], sm') := by
  obtain ⟨batch, hentry, _⟩ := applyEntry_ok (K := K) h.routed h.nodesKeyed ha
  exact ⟨_, apply_singleton.mpr hentry⟩

/-- A restart with exact indexes gives the catalog back with the counter derived from the live
ranges. -/
theorem Backed.restart {sm : PdRaftStateMachine} (h : Backed K sm)
    (hx : IndexesExact sm.inner.catalog) :
    ∃ sm', open_ K sm.inner.data = .ok sm' ∧ Backed K sm' ∧ sm'.pdMeta = sm.pdMeta ∧
      sm'.inner.catalog =
        { sm.inner.catalog with nextRangeId := sm.inner.catalog.idCeiling } := by
  obtain ⟨m, hm, hs⟩ := h.stored
  obtain ⟨l, ns, hl, hns, hopen⟩ := open_stored hs
  have hhint : max sm.inner.catalog.idCeiling (nextHint l) = sm.inner.catalog.idCeiling := by
    rw [max_eq_left]
    rw [← idCeiling_eq hl]
    exact nextHint_le l
  have hload : load l ns (nextHint l) =
      { sm.inner.catalog with nextRangeId := sm.inner.catalog.idCeiling } := by
    rw [load_eq h.routed hx.1 hx.2 h.nodesKeyed hl hns, hhint]
  refine ⟨_, hopen, ⟨⟨m, rfl, ?_⟩, load_routed h.routed hl, ?_⟩, hm, hload⟩
  · show Stored K (load l ns (nextHint l)).ranges (load l ns (nextHint l)).nodes m
      sm.inner.data.rows
    rw [hload]
    exact hs
  · show (load l ns (nextHint l)).NodesKeyed
    rw [hload]
    exact h.nodesKeyed

/-- Installing a snapshot of a catalog that hydration gives back makes it the catalog of the
replica, whatever the replica held before. -/
theorem install_catalog {c : Catalog} {p : PersistedPdMeta} {payload : SnapshotPayload}
    (hr : c.Routed) (hn : c.NodesKeyed) (hsafe : SnapshotSafe c)
    (hp : snapshotPayload p c = some payload) (sm : PdRaftStateMachine) :
    ∃ sm', sm.installSnapshot K (K.payload.encode payload) = .ok sm' ∧ sm'.pdMeta = p ∧
      sm'.inner.catalog = c ∧ ∀ ranges nodes m, Stored K ranges nodes m sm.inner.data.rows →
        Stored K c.ranges c.nodes (some p) sm'.inner.data.rows := by
  obtain ⟨⟨hstart, hgroup⟩, hceil⟩ := hsafe
  obtain ⟨payload', hp', hlast, hmem, hnext, hl, hns⟩ := snapshotPayload_lists hr hstart.live p
  rw [hp] at hp'
  obtain rfl := Option.some.inj hp'
  obtain ⟨data, hinstall, hstored⟩ := installSnapshot_stored (K := K) sm hr hn hl hns
  rw [hlast, hmem] at hinstall hstored
  refine ⟨_, hinstall, rfl, ?_, hstored⟩
  show load payload.ranges payload.nodes payload.nextRangeId = c
  rw [load_eq hr hstart hgroup hn hl hns, hnext, max_eq_right hceil]

/-- Installing a safe snapshot makes a replica a copy of the one that built it. -/
theorem Backed.install {sm peer : PdRaftStateMachine} (h : Backed K sm) (hpeer : Backed K peer)
    (hsafe : SnapshotSafe peer.inner.catalog) :
    ∃ snapshot sm', peer.buildSnapshot K = .ok snapshot ∧ sm.installSnapshot K snapshot = .ok sm' ∧
      Backed K sm' ∧ sm'.pdMeta = peer.pdMeta ∧ sm'.inner.catalog = peer.inner.catalog := by
  obtain ⟨m, _, hs⟩ := h.stored
  obtain ⟨payload, hpayload, _⟩ := snapshotPayload_lists hpeer.routed hsafe.1.1.live peer.pdMeta
  obtain ⟨sm', hinstall, hmeta, hcat, hstored⟩ :=
    install_catalog (K := K) hpeer.routed hpeer.nodesKeyed hsafe hpayload sm
  refine ⟨K.payload.encode payload, sm', ?_, hinstall, ⟨⟨some _, hmeta.symm, ?_⟩, ?_, ?_⟩,
    hmeta, hcat⟩
  · unfold buildSnapshot
    rw [hpayload]
  · rw [hcat]
    exact hstored _ _ m hs
  · rw [hcat]
    exact hpeer.routed
  · rw [hcat]
    exact hpeer.nodesKeyed

theorem nextIndex_eq_of_pdMeta_eq {sm sm' : PdRaftStateMachine} (h : sm.pdMeta = sm'.pdMeta) :
    sm.nextIndex = sm'.nextIndex := by
  unfold nextIndex
  rw [h]

theorem nextIndex_of_entryMeta {sm sm' : PdRaftStateMachine} {e : Entry}
    (he : L.entries[sm.nextIndex]? = some e) (hmeta : sm'.pdMeta = entryMeta sm.pdMeta e) :
    sm'.nextIndex = sm.nextIndex + 1 := by
  have hidx := L.indexed sm.nextIndex e he
  have hnext : sm'.nextIndex = e.logId.index.toNat + 1 := by
    conv_lhs => unfold nextIndex
    rw [hmeta]
    rfl
  rw [hnext, hidx]

/-! ### Replicas follow the log -/

/-- A replica in step with the log: its catalog, its meta and its responses are those of folding
the catalog over the entries before its next index. -/
structure InStep (K : PdCodec) (L : RaftLog) (sm : PdRaftStateMachine)
    (given : ℕ → Option PdResponse) : Prop where
  backed : Backed K sm
  catalog : sm.inner.catalog = ofLog (L.entries.take sm.nextIndex)
  pdMeta : sm.pdMeta = metaOf (L.entries.take sm.nextIndex)
  given : ∀ i resp, given i = some resp →
    ∃ e, L.entries[i]? = some e ∧ (ofLog (L.entries.take i)).answer e = some resp

theorem inStep_fresh : InStep K L .fresh fun _ => none where
  backed := backed_fresh
  catalog := rfl
  pdMeta := rfl
  given := by
    intro i resp h
    cases h

theorem InStep.apply {sm sm' : PdRaftStateMachine} {given : ℕ → Option PdResponse} {e : Entry}
    {resp : PdResponse} (h : InStep K L sm given) (he : L.entries[sm.nextIndex]? = some e)
    (happly : sm.apply K [e] = (.ok [resp], sm')) :
    InStep K L sm' (Function.update given sm.nextIndex (some resp)) := by
  obtain ⟨ha, hb, hcat, hmeta⟩ := h.backed.of_apply happly
  have hnext : sm'.nextIndex = sm.nextIndex + 1 := nextIndex_of_entryMeta he hmeta
  have htake : L.entries.take sm'.nextIndex = L.entries.take sm.nextIndex ++ [e] := by
    rw [hnext, List.take_add_one, he]
    rfl
  refine ⟨hb, ?_, ?_, ?_⟩
  · rw [htake, hcat, h.catalog]
    exact (Run.run_concat _ _ _ _).symm
  · rw [htake, hmeta, h.pdMeta]
    exact (Run.run_concat _ _ _ _).symm
  · intro i r hi
    by_cases hidx : i = sm.nextIndex
    · subst hidx
      rw [Function.update_self] at hi
      rw [← Option.some.inj hi, ← h.catalog]
      exact ⟨e, he, ha⟩
    · rw [Function.update_of_ne hidx] at hi
      exact h.given i r hi

theorem InStep.restart {sm sm' : PdRaftStateMachine} {given : ℕ → Option PdResponse}
    (h : InStep K L sm given) (hsafe : RestartSafe sm.inner.catalog)
    (hopen : open_ K sm.inner.data = .ok sm') : InStep K L sm' given := by
  obtain ⟨hx, hnext⟩ := hsafe
  obtain ⟨sm'', hopen', hb, hmeta, hcat⟩ := h.backed.restart hx
  rw [hopen] at hopen'
  obtain rfl := Except.ok.inj hopen'
  have hsame : sm'.inner.catalog = sm.inner.catalog := by rw [hcat, ← hnext]
  have hidx := nextIndex_eq_of_pdMeta_eq hmeta
  exact ⟨hb, by rw [hidx, hsame, h.catalog], by rw [hidx, hmeta, h.pdMeta], h.given⟩

theorem InStep.install {sm sm' peer : PdRaftStateMachine} {given given' : ℕ → Option PdResponse}
    {snapshot : Bytes} (h : InStep K L sm given) (hpeer : InStep K L peer given')
    (hsafe : SnapshotSafe peer.inner.catalog) (hbuild : peer.buildSnapshot K = .ok snapshot)
    (hinstall : sm.installSnapshot K snapshot = .ok sm') : InStep K L sm' given := by
  obtain ⟨snapshot', sm'', hbuild', hinstall', hb, hmeta, hcat⟩ :=
    h.backed.install hpeer.backed hsafe
  rw [hbuild] at hbuild'
  obtain rfl := Except.ok.inj hbuild'
  rw [hinstall] at hinstall'
  obtain rfl := Except.ok.inj hinstall'
  have hidx := nextIndex_eq_of_pdMeta_eq hmeta
  exact ⟨hb, by rw [hidx, hcat, hpeer.catalog], by rw [hidx, hmeta, hpeer.pdMeta], h.given⟩

/-- Every replica whose restarts and snapshots were safe is in step with the log. -/
theorem Reached.inStep {sm : PdRaftStateMachine} {given : ℕ → Option PdResponse}
    (h : Reached K L .safe sm given) : InStep K L sm given := by
  induction h with
  | fresh => exact inStep_fresh
  | apply _ he happly ih => exact ih.apply he happly
  | restart _ hsafe hopen ih => exact ih.restart hsafe hopen
  | install _ _ _ hsafe hbuild hinstall ih ihpeer => exact ih.install ihpeer hsafe hbuild hinstall

/-! ### Logs on which hydration loses nothing but the counter -/

/-- Along a log without counter overflow whose splits allocate fresh group ids, every snapshot is
safe. -/
theorem snapshotSafe_ofLog {es : List Entry}
    (h : Run.Along step (fun c cmd => NoOverflow c cmd ∧ SplitGroupFresh c cmd) new (commands es)) :
    SnapshotSafe (ofLog es) := by
  obtain ⟨hsound, hgroup⟩ := sound_groupExact_after h
  rw [ofLog_eq_after]
  exact ⟨⟨hsound.startExact, hgroup⟩, hsound.idCeiling_le⟩

/-! ### Agreement -/

/-- A replica at a known position with a known catalog. -/
structure At (K : PdCodec) (L : RaftLog) (G : Guard) (c : Catalog) (n : ℕ) (sm : PdRaftStateMachine)
    (given : ℕ → Option PdResponse) : Prop where
  reached : Reached K L G sm given
  backed : Backed K sm
  catalog : sm.inner.catalog = c
  position : sm.nextIndex = n

theorem at_fresh : At K L G .new 0 .fresh fun _ => none := ⟨.fresh, backed_fresh, rfl, rfl⟩

theorem At.next {c : Catalog} {n : ℕ} {sm : PdRaftStateMachine} {given : ℕ → Option PdResponse}
    (h : At K L G c n sm given) {e : Entry} (he : L.entries[n]? = some e) {resp : PdResponse}
    (ha : c.answer e = some resp) :
    ∃ sm', At K L G (c.stepEntry e) (n + 1) sm' (Function.update given n (some resp)) := by
  rw [← h.catalog] at ha
  obtain ⟨sm', happly⟩ := h.backed.apply_ok ha
  obtain ⟨_, hb, hcat, hmeta⟩ := h.backed.of_apply happly
  have he' : L.entries[sm.nextIndex]? = some e := by rw [h.position, he]
  have hreached := Reached.apply h.reached he' happly
  rw [h.position] at hreached
  refine ⟨sm', hreached, hb, ?_, ?_⟩
  · rw [hcat, h.catalog]
  · rw [nextIndex_of_entryMeta he' hmeta, h.position]

theorem At.restarted {c : Catalog} {n : ℕ} {sm : PdRaftStateMachine}
    {given : ℕ → Option PdResponse} (h : At K L G c n sm given) (hx : IndexesExact c)
    (hsafe : G.restart c) :
    ∃ sm', At K L G { c with nextRangeId := c.idCeiling } n sm' given := by
  obtain ⟨sm', hopen, hb, hmeta, hcat⟩ := h.backed.restart (by rw [h.catalog]; exact hx)
  refine ⟨sm', Reached.restart h.reached (by rw [h.catalog]; exact hsafe) hopen, hb, ?_, ?_⟩
  · rw [hcat, h.catalog]
  · rw [nextIndex_eq_of_pdMeta_eq hmeta, h.position]

theorem At.installed {c d : Catalog} {n k : ℕ} {sm peer : PdRaftStateMachine}
    {given given' : ℕ → Option PdResponse} (h : At K L G c n sm given)
    (hpeer : At K L G d k peer given') (hle : n ≤ k) (hx : SnapshotSafe d) (hsafe : G.snapshot d) :
    ∃ sm', At K L G d k sm' given := by
  obtain ⟨snapshot, sm', hbuild, hinstall, hb, hmeta, hcat⟩ :=
    h.backed.install hpeer.backed (by rw [hpeer.catalog]; exact hx)
  refine ⟨sm', Reached.install h.reached hpeer.reached ?_ ?_ hbuild hinstall, hb, ?_, ?_⟩
  · rw [h.position, hpeer.position]
    exact hle
  · rw [hpeer.catalog]
    exact hsafe
  · rw [hcat, hpeer.catalog]
  · rw [nextIndex_eq_of_pdMeta_eq hmeta, hpeer.position]

/-- **Replicas agree**: two replicas of one log, each restarted and caught up by snapshots at
arbitrary points where the catalog at hand is the one that hydration gives back, hold the same
ranges, nodes and id counter whenever they have reached the same position, and have given the same
response to every entry both applied. -/
theorem replicas_agree (K : PdCodec) (L : RaftLog) (a b : PdRaftStateMachine)
    (givenA givenB : ℕ → Option PdResponse) (ha : Reached K L .safe a givenA)
    (hb : Reached K L .safe b givenB) :
    (a.nextIndex = b.nextIndex → a.inner.catalog.ranges = b.inner.catalog.ranges ∧
        a.inner.catalog.nodes = b.inner.catalog.nodes ∧
        a.inner.catalog.nextRangeId = b.inner.catalog.nextRangeId) ∧
      ∀ i x y, givenA i = some x → givenB i = some y → x = y := by
  have hsa := ha.inStep
  have hsb := hb.inStep
  refine ⟨?_, ?_⟩
  · intro hidx
    have hcat : a.inner.catalog = b.inner.catalog := by rw [hsa.catalog, hsb.catalog, hidx]
    rw [hcat]
    exact ⟨rfl, rfl, rfl⟩
  · intro i x y hx hy
    obtain ⟨e, he, hxa⟩ := hsa.given i x hx
    obtain ⟨e', he', hyb⟩ := hsb.given i y hy
    rw [he] at he'
    obtain rfl := Option.some.inj he'
    exact Option.some.inj (hxa.symm.trans hyb)

/-- A command entry of the first term. -/
def logEntry (index : UInt64) (cmd : PdCommand) : Entry := ⟨⟨⟨1, 1⟩, index⟩, .normal cmd⟩

/-- Create the unbounded range, split it, dissolve the new range, and split again. -/
def splitAgainLog : RaftLog where
  entries := [logEntry 0 (.createRange (.new 1 [] [] [])), logEntry 1 (.splitRange 1 [109]),
    logEntry 2 (.mergeRanges 1 2), logEntry 3 (.splitRange 1 [109])]
  indexed := by
    intro i e h
    match i, h with
    | 0, h => obtain rfl := Option.some.inj h; rfl
    | 1, h => obtain rfl := Option.some.inj h; rfl
    | 2, h => obtain rfl := Option.some.inj h; rfl
    | 3, h => obtain rfl := Option.some.inj h; rfl

/-- The catalog after the first `n` entries of that log. -/
def splitAgainAt (n : ℕ) : Catalog := ofLog (splitAgainLog.entries.take n)

/-- A replica that applied the first `n` entries without interruption. -/
theorem splitAgain_at {G : Guard} (n : ℕ) (hn : n ≤ 4) :
    ∃ sm given, At bincode splitAgainLog G (splitAgainAt n) n sm given := by
  induction n with
  | zero => exact ⟨_, _, at_fresh⟩
  | succ n ih =>
      obtain ⟨sm, given, h⟩ := ih (by omega)
      have hsome : ∀ k : Fin 4,
          (splitAgainLog.entries[k.val]?.bind (splitAgainAt k).answer).isSome = true := by
        decide +kernel
      obtain ⟨resp, hresp⟩ := Option.isSome_iff_exists.mp (hsome ⟨n, by omega⟩)
      obtain ⟨e, he, ha⟩ := Option.bind_eq_some_iff.mp hresp
      have hstep : (splitAgainAt n).stepEntry e = splitAgainAt (n + 1) := by
        unfold splitAgainAt
        rw [List.take_add_one, he]
        exact (Run.run_concat _ _ _ _).symm
      obtain ⟨sm', h'⟩ := h.next he ha
      rw [hstep] at h'
      exact ⟨sm', _, h'⟩

/-- Up to the second entry nothing is lost: the counter is one past the highest live id. -/
theorem replicas_agree_after_split :
    ∃ a b givenA givenB, Reached bincode splitAgainLog .safe a givenA ∧
      Reached bincode splitAgainLog .safe b givenB ∧ a.nextIndex = 2 ∧ b.nextIndex = 2 ∧
      a.inner.catalog.ranges = b.inner.catalog.ranges ∧
      a.inner.catalog.nextRangeId = b.inner.catalog.nextRangeId := by
  have hsafe : SnapshotSafe (splitAgainAt 2) := snapshotSafe_ofLog (by decide +kernel)
  have hrestart : RestartSafe (splitAgainAt 2) := ⟨hsafe.1, by decide +kernel⟩
  obtain ⟨a, givenA, ha⟩ := splitAgain_at (G := .safe) 2 (by omega)
  -- The other replica is caught up by a snapshot and then restarted.
  obtain ⟨b, hb⟩ := (at_fresh (G := .safe)).installed ha (Nat.zero_le 2) hsafe hsafe
  obtain ⟨b', hb'⟩ := hb.restarted hsafe.1 hrestart
  have hagree := replicas_agree bincode splitAgainLog a b' givenA _ ha.reached hb'.reached
  obtain ⟨hranges, _, hnext⟩ := hagree.1 (by rw [ha.position, hb'.position])
  exact ⟨a, b', givenA, _, ha.reached, hb'.reached, ha.position, hb'.position, hranges, hnext⟩

/-- A replica restarted after the merge allocates id 2 again where the others allocate id 3. -/
theorem replicas_disagree :
    ∃ a b givenA givenB, Reached bincode splitAgainLog .none a givenA ∧
      Reached bincode splitAgainLog .none b givenB ∧ a.nextIndex = 4 ∧ b.nextIndex = 4 ∧
      a.inner.catalog.nextRangeId ≠ b.inner.catalog.nextRangeId ∧
      a.inner.catalog.ranges ≠ b.inner.catalog.ranges ∧
      ∃ x y, givenA 3 = some x ∧ givenB 3 = some y ∧ x ≠ y := by
  have he : splitAgainLog.entries[3]? = some (logEntry 3 (.splitRange 1 [109])) := rfl
  have hexact : IndexesExact (splitAgainAt 3) := (snapshotSafe_ofLog (by decide +kernel)).1
  have hthree : (splitAgainAt 3).answer (logEntry 3 (.splitRange 1 [109])) =
      some (.range { RangeDescriptor.new 3 [109] [] [] with generation := 3 }) := by decide +kernel
  have htwo : ({ splitAgainAt 3 with nextRangeId := (splitAgainAt 3).idCeiling } : Catalog).answer
      (logEntry 3 (.splitRange 1 [109])) =
        some (.range { RangeDescriptor.new 2 [109] [] [] with generation := 3 }) := by
    decide +kernel
  obtain ⟨sm, given, h⟩ := splitAgain_at (G := .none) 3 (by omega)
  obtain ⟨a, ha⟩ := h.next he hthree
  obtain ⟨sm', h'⟩ := h.restarted hexact trivial
  obtain ⟨b, hb⟩ := h'.next he htwo
  refine ⟨a, b, _, _, ha.reached, hb.reached, ha.position, hb.position, ?_, ?_, _, _,
    Function.update_self _ _ _, Function.update_self _ _ _, by decide +kernel⟩
  · rw [ha.catalog, hb.catalog]
    decide +kernel
  · rw [ha.catalog, hb.catalog]
    decide +kernel

end AresaDb.Pd
