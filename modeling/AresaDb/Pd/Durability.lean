import AresaDb.Pd.Rows

/-! # Durability of the placement driver

Applying log entries through the persistent state machine is a refinement of folding
`Catalog.apply` over them.  `ofLog` and `metaOf` are the abstract side: the catalog and the meta
after a list of entries.  One entry commits one batch, whether its command is accepted, rejected
or not a command at all (`applyEntry_ok`), and that batch takes the rows of the catalog before the
entry to those of the catalog after it.  So every prefix of the journal is the image of a prefix of
the log (`Journaled`), and opening after a crash gives the catalog of that prefix back
(`reopen_refines`).

A command that panics (`Catalog.answer` is `none`) commits nothing and stops the replica. -/

namespace AresaDb.Pd

open ByteOrder AresaDb.Core

namespace Catalog

/-- The catalog after a log entry; only commands touch it. -/
def stepEntry (c : Catalog) (e : Entry) : Catalog :=
  match e.payload with
  | .normal cmd => c.step cmd
  | _ => c

/-- The response that a command's result becomes; `none` is a panic. -/
def responseOf : Except Fault PdResponse → Option PdResponse
  | .ok resp => some resp
  | .error (.reject ce) => some (.error ce.display)
  | .error .panic => none

/-- The response to a log entry; `none` is a panic. -/
def answer (c : Catalog) (e : Entry) : Option PdResponse :=
  match e.payload with
  | .normal cmd => responseOf (c.apply cmd).1
  | _ => some .ok

/-- The catalog after a list of entries from the empty one. -/
def ofLog (es : List Entry) : Catalog := Run.run stepEntry new es

/-- The command of an entry, if it is one. -/
def commandOf (e : Entry) : Option PdCommand :=
  match e.payload with
  | .normal cmd => some cmd
  | _ => none

/-- The commands among a list of entries. -/
def commands (es : List Entry) : List PdCommand := es.filterMap commandOf

/-- Entries that are not commands leave no trace in the catalog. -/
theorem ofLog_eq_after (es : List Entry) : ofLog es = after (commands es) := by
  induction es using List.reverseRecOn with
  | nil => rfl
  | append_singleton es e ih =>
      have hlog : ofLog (es ++ [e]) = (ofLog es).stepEntry e := Run.run_concat _ _ _ _
      have hcmds : commands (es ++ [e]) = commands es ++ (commandOf e).toList := by
        unfold commands
        rw [List.filterMap_append]
        cases h : commandOf e with
        | none => simp [h]
        | some cmd => simp [h]
      rw [hlog, ih, hcmds]
      unfold stepEntry commandOf
      cases e.payload with
      | blank => simp
      | membership mem => simp
      | normal cmd => exact (Run.run_concat step new (commands es) cmd).symm

/-- How many entries are applied before the first panic. -/
def progress (c : Catalog) : List Entry → ℕ
  | [] => 0
  | e :: es => if (c.answer e).isSome then progress (c.stepEntry e) es + 1 else 0

theorem progress_le_length (c : Catalog) (es : List Entry) : c.progress es ≤ es.length := by
  induction es generalizing c with
  | nil => exact le_refl _
  | cons e es ih =>
      unfold progress
      split_ifs
      · have h := ih (c.stepEntry e)
        rw [List.length_cons]
        omega
      · omega

theorem Routed.stepEntry {c : Catalog} (h : c.Routed) (e : Entry) : (c.stepEntry e).Routed := by
  unfold Catalog.stepEntry
  cases e.payload with
  | blank => exact h
  | normal cmd => exact h.step cmd
  | membership mem => exact h

theorem NodesKeyed.stepEntry {c : Catalog} (h : c.NodesKeyed) (hr : c.Routed) (e : Entry) :
    (c.stepEntry e).NodesKeyed := by
  unfold Catalog.stepEntry
  cases e.payload with
  | blank => exact h
  | normal cmd => exact h.step hr cmd
  | membership mem => exact h

theorem ofLog_invariants (es : List Entry) : (ofLog es).Routed ∧ (ofLog es).NodesKeyed := by
  have hstep : ∀ (c : Catalog) (e : Entry), c.Routed ∧ c.NodesKeyed →
      (c.stepEntry e).Routed ∧ (c.stepEntry e).NodesKeyed :=
    fun _ e h => ⟨h.1.stepEntry e, h.2.stepEntry h.1 e⟩
  exact Run.invariant hstep ⟨routed_new, nodesKeyed_new⟩ es

end Catalog

open Catalog PdRaftStateMachine

variable {K : PdCodec}

/-- The meta after a list of entries. -/
def metaOf (es : List Entry) : PersistedPdMeta := Run.run entryMeta .default es

theorem metaOf_lastApplied (es : List Entry) :
    (metaOf es).lastApplied = es.getLast?.map (·.logId) := by
  induction es using List.reverseRecOn with
  | nil => rfl
  | append_singleton es e ih =>
      unfold metaOf
      rw [Run.run_concat, List.getLast?_concat]
      rfl

/-! ### One entry -/

/-- A batch takes the rows of one catalog to the rows of another one with a new meta. -/
def Moves (K : PdCodec) (c c' : Catalog) (p : PersistedPdMeta) (batch : WriteBatch) : Prop :=
  ∀ m rows, Stored K c.ranges c.nodes m rows →
    Stored K c'.ranges c'.nodes (some p) (batch.run rows)

theorem moves_metaOnly (c : Catalog) (p : PersistedPdMeta) :
    Moves K c c p (WriteBatch.new.put pdRaftMetaKey (K.pdMeta.encode p)) := by
  intro m rows h
  rw [WriteBatch.run_put, WriteBatch.run_new]
  exact h.putMeta p

/-- An entry that is answered commits one batch, which takes the rows before it to the rows after
it. -/
theorem applyEntry_ok {sm : PdRaftStateMachine} {e : Entry} {resp : PdResponse}
    (hr : sm.inner.catalog.Routed) (hn : sm.inner.catalog.NodesKeyed)
    (ha : sm.inner.catalog.answer e = some resp) :
    ∃ batch, sm.applyEntry K e =
        (.ok resp,
          { inner := { data := sm.inner.data.writeBatch batch
                       catalog := sm.inner.catalog.stepEntry e }
            pdMeta := entryMeta sm.pdMeta e }) ∧
      Moves K sm.inner.catalog (sm.inner.catalog.stepEntry e) (entryMeta sm.pdMeta e) batch := by
  unfold answer at ha
  unfold applyEntry applyInnerEntry Catalog.stepEntry
  cases hp : e.payload with
  | blank =>
      rw [hp] at ha
      obtain rfl := Option.some.inj ha
      exact ⟨_, rfl, moves_metaOnly _ _⟩
  | membership mem =>
      rw [hp] at ha
      obtain rfl := Option.some.inj ha
      exact ⟨_, rfl, moves_metaOnly _ _⟩
  | normal cmd =>
      simp only [hp] at ha
      rcases apply_outcome sm.inner.catalog cmd with ⟨r, hok, he⟩ | ⟨f, herr, hf⟩
      · have hout : sm.inner.catalog.apply cmd = (.ok r, sm.inner.catalog.step cmd) :=
          Prod.ext hok rfl
        obtain ⟨batch, hbatch, hstored⟩ := he.stored (K := K) hr hn
        have hbatch' : buildWriteBatch K cmd r (sm.inner.catalog.step cmd) = some batch := hbatch
        rw [hok] at ha
        obtain rfl := Option.some.inj ha
        refine ⟨batch.put pdRaftMetaKey (K.pdMeta.encode (entryMeta sm.pdMeta e)), ?_, ?_⟩
        · simp only [PdStateMachine.applyWithMeta, PdStateMachine.applyInner, hout, hbatch']
        · intro m rows h
          rw [WriteBatch.run_put]
          exact (hstored m rows h).putMeta _
      · have hself : sm.inner.catalog.step cmd = sm.inner.catalog := hf.eq_self hr
        rw [herr] at ha
        cases f with
        | panic => cases ha
        | reject ce =>
            have hout : sm.inner.catalog.apply cmd = (.error (.reject ce), sm.inner.catalog) :=
              Prod.ext herr hself
            obtain rfl := Option.some.inj ha
            simp only [hself, PdStateMachine.applyWithMeta, PdStateMachine.applyInner, hout]
            exact ⟨_, rfl, moves_metaOnly _ _⟩

/-- An entry that panics commits nothing. -/
theorem applyEntry_panic {sm : PdRaftStateMachine} {e : Entry}
    (ha : sm.inner.catalog.answer e = none) :
    sm.applyEntry K e =
      (.error .panic,
        { sm with inner := { sm.inner with catalog := sm.inner.catalog.stepEntry e } }) := by
  cases hp : e.payload with
  | blank => simp [answer, hp] at ha
  | membership mem => simp [answer, hp] at ha
  | normal cmd =>
      simp only [answer, hp] at ha
      have hout : sm.inner.catalog.apply cmd = (.error .panic, sm.inner.catalog.step cmd) := by
        refine Prod.ext ?_ rfl
        cases hres : (sm.inner.catalog.apply cmd).1 with
        | ok r => simp [hres, responseOf] at ha
        | error f =>
            cases f with
            | panic => rfl
            | reject ce => simp [hres, responseOf] at ha
      simp only [applyEntry, applyInnerEntry, Catalog.stepEntry, hp, PdStateMachine.applyWithMeta,
        PdStateMachine.applyInner, hout]

/-! ### The journal of a run -/

/-- Every prefix of the journal is the image of the same prefix of the log. -/
structure Journaled (K : PdCodec) (es : List Entry) (data : Backend) : Prop where
  length : data.journal.length = es.length
  stored : ∀ n ≤ es.length, ∃ m : Option PersistedPdMeta, m.getD .default = metaOf (es.take n) ∧
    Stored K (ofLog (es.take n)).ranges (ofLog (es.take n)).nodes m (data.crash n).rows

/-- A replica in the middle of a run: what it holds in memory and on disk is the image of the
entries applied so far. -/
structure Tracks (K : PdCodec) (es : List Entry) (sm : PdRaftStateMachine) : Prop where
  catalog : sm.inner.catalog = ofLog es
  pdMeta : sm.pdMeta = metaOf es
  journaled : Journaled K es sm.inner.data

/-- The replica that opens an empty backend. -/
def PdRaftStateMachine.fresh : PdRaftStateMachine :=
  { inner := { data := .new, catalog := .new }, pdMeta := .default }

theorem tracks_fresh : Tracks K [] .fresh where
  catalog := rfl
  pdMeta := rfl
  journaled :=
    { length := rfl
      stored := by
        intro n hn
        obtain rfl := Nat.le_zero.mp hn
        exact ⟨none, rfl, stored_empty⟩ }

/-- The rows on disk are those of the entries applied so far. -/
theorem Journaled.stored_all {es : List Entry} {data : Backend} (h : Journaled K es data) :
    ∃ m : Option PersistedPdMeta, m.getD .default = metaOf es ∧
      Stored K (ofLog es).ranges (ofLog es).nodes m data.rows := by
  obtain ⟨m, hm, hs⟩ := h.stored es.length (le_refl _)
  rw [List.take_length] at hm hs
  rw [Backend.crash_of_length_le _ (le_of_eq h.length)] at hs
  exact ⟨m, hm, hs⟩

theorem Journaled.writeBatch {es : List Entry} {e : Entry} {data : Backend} {batch : WriteBatch}
    (h : Journaled K es data)
    (hs : Stored K (ofLog (es ++ [e])).ranges (ofLog (es ++ [e])).nodes (some (metaOf (es ++ [e])))
      (batch.run data.rows)) : Journaled K (es ++ [e]) (data.writeBatch batch) where
  length := by
    have hl := h.length
    simp only [Backend.writeBatch, List.length_append, List.length_singleton]
    omega
  stored := by
    intro n hn
    rw [List.length_append, List.length_singleton] at hn
    rcases Nat.lt_or_ge n (es.length + 1) with hlt | hge
    · have hle : n ≤ es.length := by omega
      rw [List.take_append_of_le_length hle,
        Backend.crash_writeBatch_of_le _ _ (by rw [h.length]; exact hle)]
      exact h.stored n hle
    · have hall : (es ++ [e]).take n = es ++ [e] :=
        List.take_of_length_le (by simpa using hge)
      have hcrash : (data.writeBatch batch).crash n = data.writeBatch batch :=
        Backend.crash_of_length_le _ (by simp [Backend.writeBatch, h.length]; omega)
      rw [hall, hcrash, Backend.rows_writeBatch]
      exact ⟨some _, rfl, hs⟩

theorem Tracks.applyEntry {es : List Entry} {sm : PdRaftStateMachine} (h : Tracks K es sm)
    {e : Entry} {resp : PdResponse} (ha : (ofLog es).answer e = some resp) :
    ∃ sm', sm.applyEntry K e = (.ok resp, sm') ∧ Tracks K (es ++ [e]) sm' := by
  obtain ⟨m, _, hs⟩ := h.journaled.stored_all
  obtain ⟨hr, hn⟩ := ofLog_invariants es
  rw [← h.catalog] at ha hs hr hn
  obtain ⟨batch, happly, hmoves⟩ := applyEntry_ok (K := K) hr hn ha
  have hcat : sm.inner.catalog.stepEntry e = ofLog (es ++ [e]) := by
    unfold ofLog
    rw [Run.run_concat, h.catalog]
    rfl
  have hmeta : entryMeta sm.pdMeta e = metaOf (es ++ [e]) := by
    unfold metaOf
    rw [Run.run_concat, h.pdMeta]
    rfl
  refine ⟨_, happly, hcat, hmeta, ?_⟩
  rw [hcat, hmeta] at hmoves
  exact h.journaled.writeBatch (hmoves m _ hs)

/-- A run applies the entries before the first panic and no others. -/
theorem Tracks.apply {es : List Entry} {sm : PdRaftStateMachine} (h : Tracks K es sm)
    (es' : List Entry) :
    Journaled K (es ++ es'.take ((ofLog es).progress es')) (sm.apply K es').2.inner.data := by
  induction es' generalizing es sm with
  | nil =>
      rw [List.take_nil, List.append_nil]
      exact h.journaled
  | cons e es' ih =>
      cases ha : (ofLog es).answer e with
      | none =>
          have ha' : sm.inner.catalog.answer e = none := by rw [h.catalog, ha]
          have hpanic := applyEntry_panic (K := K) ha'
          simp only [PdRaftStateMachine.apply, hpanic, progress, ha, Option.isSome_none,
            Bool.false_eq_true, if_false, List.take_zero, List.append_nil]
          exact h.journaled
      | some resp =>
          obtain ⟨sm', happly, h'⟩ := h.applyEntry ha
          have hrest := ih h'
          have hcat : ofLog (es ++ [e]) = (ofLog es).stepEntry e := Run.run_concat _ _ _ _
          simp only [PdRaftStateMachine.apply, happly, progress, ha, Option.isSome_some, if_true,
            List.take_succ_cons]
          rw [hcat, List.append_assoc, List.singleton_append] at hrest
          exact hrest

/-! ### Crash and reopen -/

/-- Row keys determine their row: no two ranges, no two nodes, no range and node, and no row and
the meta row share a key, and each prefix scan meets the keys of its own kind only. -/
structure RowKeysApart : Prop where
  range : ∀ i j : RangeId, rangeKey i = rangeKey j → i = j
  node : ∀ i j : NodeId, nodeKey i = nodeKey j → i = j
  rangeNode : ∀ (i : RangeId) (j : NodeId), rangeKey i ≠ nodeKey j
  rangeMeta : ∀ i : RangeId, rangeKey i ≠ pdRaftMetaKey
  nodeMeta : ∀ i : NodeId, nodeKey i ≠ pdRaftMetaKey
  rangeScan : ∃ up, prefixUpperBound rangePrefix = some up ∧
    (∀ i : RangeId, (KeyRange.mk rangePrefix up).contains (rangeKey i) = true) ∧
    (∀ i : NodeId, (KeyRange.mk rangePrefix up).contains (nodeKey i) = false) ∧
    (KeyRange.mk rangePrefix up).contains pdRaftMetaKey = false
  nodeScan : ∃ up, prefixUpperBound nodePrefix = some up ∧
    (∀ i : NodeId, (KeyRange.mk nodePrefix up).contains (nodeKey i) = true) ∧
    (∀ i : RangeId, (KeyRange.mk nodePrefix up).contains (rangeKey i) = false) ∧
    (KeyRange.mk nodePrefix up).contains pdRaftMetaKey = false

/-- A scan up to a bumped prefix meets the keys with that prefix. -/
theorem contains_prefix_iff {pre up key : Bytes} (hup : prefixUpperBound pre = some up)
    (hne : up ≠ []) : (KeyRange.mk pre up).contains key = true ↔ pre <+: key := by
  rw [← mem_prefixUpperBound_iff hup]
  simp [KeyRange.contains, hne]

theorem rowKeysApart : RowKeysApart where
  range := fun _ _ h => rangeKey_inj.mp h
  node := fun _ _ h => nodeKey_inj.mp h
  rangeNode := rangeKey_ne_nodeKey
  rangeMeta := rangeKey_ne_metaKey
  nodeMeta := nodeKey_ne_metaKey
  rangeScan := by
    have hiff : ∀ key, (KeyRange.mk rangePrefix rangeEnd).contains key = true ↔
        rangePrefix <+: key :=
      fun _ => contains_prefix_iff prefixUpperBound_rangePrefix (by decide)
    refine ⟨rangeEnd, prefixUpperBound_rangePrefix, fun i =>
      (hiff _).mpr (prefix_idKey _ i), ?_, ?_⟩
    · intro i
      rw [Bool.eq_false_iff, ne_eq, hiff]
      exact not_prefix_idKey (by decide) rangePrefix_ne_nodePrefix i
    · decide
  nodeScan := by
    have hiff : ∀ key, (KeyRange.mk nodePrefix nodeEnd).contains key = true ↔ nodePrefix <+: key :=
      fun _ => contains_prefix_iff prefixUpperBound_nodePrefix (by decide)
    refine ⟨nodeEnd, prefixUpperBound_nodePrefix, fun i => (hiff _).mpr (prefix_idKey _ i), ?_, ?_⟩
    · intro i
      rw [Bool.eq_false_iff, ne_eq, hiff]
      exact not_prefix_idKey (by decide) rangePrefix_ne_nodePrefix.symm i
    · decide

/-- Opening a backend that holds the rows of a log prefix gives its catalog and meta back. -/
theorem Journaled.reopen {es : List Entry} {data : Backend} (h : Journaled K es data) (cut : ℕ) :
    ∃ sm, open_ K (data.crash cut) = .ok sm ∧ sm.pdMeta = metaOf (es.take cut) ∧
      sm.inner.catalog.ranges = (ofLog (es.take cut)).ranges ∧
      sm.inner.catalog.nodes = (ofLog (es.take cut)).nodes ∧
      ∀ key, sm.inner.catalog.findRangeForKey key = (ofLog (es.take cut)).findRangeForKey key := by
  -- A cut past the end of the journal is a cut at its end.
  have hcut : ∃ n ≤ es.length, data.crash cut = data.crash n ∧ es.take cut = es.take n := by
    rcases Nat.le_total cut es.length with hle | hge
    · exact ⟨cut, hle, rfl, rfl⟩
    · refine ⟨es.length, le_refl _, ?_, ?_⟩
      · rw [Backend.crash_of_length_le _ (by rw [h.length]; exact hge),
          Backend.crash_of_length_le _ (le_of_eq h.length)]
      · rw [List.take_of_length_le hge, List.take_length]
  obtain ⟨n, hn, hdata, htake⟩ := hcut
  obtain ⟨m, hm, hs⟩ := h.stored n hn
  obtain ⟨hr, hnk⟩ := ofLog_invariants (es.take n)
  obtain ⟨l, ns, hl, hns, hopen⟩ := open_stored hs
  rw [hdata, htake]
  exact ⟨_, hopen, hm, load_ranges hr hl, load_nodes hnk hns, load_findRangeForKey hr hl⟩

/-- **Durability**: opening an empty backend gives the empty replica; whatever entries it applies
and wherever between two batches a crash cuts the journal, opening again gives the meta, the
ranges, the nodes and the routing of folding the catalog over the entries up to the persisted last
one.  The batch of each accepted command is the difference between the catalogs before and after
it, and row keys do not collide. -/
theorem reopen_refines (K : PdCodec) (es : List Entry) (cut : ℕ) :
    open_ K .new = .ok .fresh ∧
      (∃ sm n, n = min cut (Catalog.new.progress es) ∧
        open_ K ((PdRaftStateMachine.fresh.apply K es).2.inner.data.crash cut) = .ok sm ∧
        sm.pdMeta.lastApplied = (es.take n).getLast?.map (·.logId) ∧
        sm.inner.catalog.ranges = (ofLog (es.take n)).ranges ∧
        sm.inner.catalog.nodes = (ofLog (es.take n)).nodes ∧
        ∀ key, sm.inner.catalog.findRangeForKey key = (ofLog (es.take n)).findRangeForKey key) ∧
      (∀ cmds cmd resp, ((after cmds).apply cmd).1 = .ok resp →
        ∃ batch, buildWriteBatch K cmd resp (after (cmds ++ [cmd])) = some batch ∧
          ∀ m rows, Stored K (after cmds).ranges (after cmds).nodes m rows →
            Stored K (after (cmds ++ [cmd])).ranges (after (cmds ++ [cmd])).nodes m
              (batch.run rows)) ∧
      RowKeysApart := by
  refine ⟨rfl, ?_, ?_, rowKeysApart⟩
  · have hjournal := (tracks_fresh (K := K)).apply es
    rw [List.nil_append] at hjournal
    obtain ⟨sm, hopen, hmeta, hranges, hnodes, hfind⟩ := hjournal.reopen cut
    rw [List.take_take] at hmeta hranges hnodes hfind
    exact ⟨sm, _, rfl, hopen, by rw [hmeta, metaOf_lastApplied]; rfl, hranges, hnodes, hfind⟩
  · intro cmds cmd resp hok
    have hstep : after (cmds ++ [cmd]) = (after cmds).step cmd := Run.run_concat step new cmds cmd
    rcases apply_outcome (after cmds) cmd with ⟨r, hr, he⟩ | ⟨f, herr, _⟩
    · rw [hok] at hr
      obtain rfl := Except.ok.inj hr
      rw [hstep]
      exact he.stored (routed_after cmds) (nodesKeyed_after cmds)
    · rw [hok] at herr
      cases herr

end AresaDb.Pd
