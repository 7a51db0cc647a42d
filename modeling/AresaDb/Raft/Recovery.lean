import AresaDb.Raft.StateMachine

/-! # Crashes and snapshots of the key-value state machine

After a crash the reopened store is the store that applied exactly the entries whose batches
landed (`open_crash`): the metadata row is the last write of its batch, whatever the entry does.

A snapshot reads its log position first and its data later, so the data may be ahead.  Replaying
the entries in between does no harm: under each key the last operation decides, and the replay
ends with the same last operation (`Overwrite.last_replay`). -/

namespace AresaDb.Raft

open ByteOrder AresaDb.Core
open AresaDb.Pd (LeaderId LogId Membership StoredMembership)

variable (K : KvCodec)

/-! ### Crashes -/

/-- The store that has applied a list of entries from the start of the log. -/
def applied (es : List Entry) : StateMachineStore :=
  ((StateMachineStore.new .new).apply K es).2

theorem applied_append (as bs : List Entry) :
    applied K (as ++ bs) = ((applied K as).apply K bs).2 := apply_append K _ as bs

/-- Each entry is one batch. -/
theorem apply_journal (sm : StateMachineStore) (es : List Entry) :
    ∃ bs : List WriteBatch, bs.length = es.length ∧
      (sm.apply K es).2.data.journal = sm.data.journal ++ bs := by
  rw [apply_eq]
  induction es generalizing sm with
  | nil => exact ⟨[], rfl, by simp⟩
  | cons e es ih =>
      obtain ⟨bs, hlen, hj⟩ := ih (sm.applyEntry K e)
      refine ⟨StateMachineStore.entryBatch K sm.inner e :: bs, by simp [hlen], ?_⟩
      rw [List.foldl_cons, hj]
      simp [StateMachineStore.applyEntry, Backend.writeBatch]

/-- A crash after `m` batches leaves the rows of the first `m` entries. -/
theorem applied_crash (es : List Entry) (m : ℕ) :
    (applied K es).data.crash m = (applied K (es.take m)).data := by
  obtain ⟨bs, hlen, hj⟩ := apply_journal K (StateMachineStore.new .new) (es.take m)
  obtain ⟨bs', hlen', hj'⟩ := apply_journal K (applied K (es.take m)) (es.drop m)
  have hlength : (applied K (es.take m)).data.journal.length = min m es.length := by
    unfold applied
    rw [hj, List.length_append, hlen, List.length_take]
    show 0 + _ = _
    omega
  have hall : (applied K es).data.journal = (applied K (es.take m)).data.journal ++ bs' := by
    rw [← hj', ← applied_append, List.take_append_drop]
  unfold Backend.crash
  rw [hall]
  by_cases hm : m ≤ es.length
  · rw [List.take_left' (by omega)]
  · have hnil : bs' = [] := by
      apply List.length_eq_zero_iff.mp
      rw [hlen', List.length_drop]
      omega
    rw [hnil, List.append_nil, List.take_of_length_le (by omega)]

/-- The metadata row of the last entry. -/
theorem get_smMetaKey_applied (es : List Entry) :
    (applied K es).data.rows[smMetaKey]? =
      if es = [] then none else some (K.kvMeta.encode (applied K es).inner) := by
  rcases List.eq_nil_or_concat es with rfl | ⟨es, e, rfl⟩
  · rfl
  · rw [List.concat_eq_append, applied_append, if_neg (by simp)]
    exact get_smMetaKey_applyEntry K (applied K es) e

/-- **Reopening.**  The store found after a crash is the store that applied the entries whose
batches landed. -/
theorem open_crash (es : List Entry) (m : ℕ) :
    StateMachineStore.open_ K ((applied K es).data.crash m) = .ok (applied K (es.take m)) := by
  rw [applied_crash]
  generalize es.take m = es
  unfold StateMachineStore.open_ StateMachineStore.loadPersisted StateMachineStore.new Backend.get
  rw [get_smMetaKey_applied]
  by_cases hnil : es = []
  · subst hnil
    rfl
  · simp only [if_neg hnil, K.kvMeta.decode_encode]

/-- The rows after an operation as it was sent. -/
def SerializableWriteOp.applyTo (rows : Rows) : SerializableWriteOp → Rows
  | put key value => rows.insert key value
  | delete key => rows.erase key
  | deleteRange start stop => rows.filter fun key _ => decide ¬(start ≤ key ∧ key < stop)

/-- The write batches among the entries, as they were sent. -/
def sentBatches (es : List Entry) : List SerializableWriteBatch :=
  es.filterMap fun e =>
    match e.payload with
    | .normal (.writeBatch batch) => some batch
    | _ => none

/-- The left-to-right fold of the write batches. -/
def userRows (es : List Entry) : Rows :=
  (sentBatches es).foldl (fun rows batch => batch.ops.foldl SerializableWriteOp.applyTo rows) ∅

/-- A batch does to the rows what its operations say. -/
theorem run_pushTo (ops : List SerializableWriteOp) (b : WriteBatch) (rows : Rows) :
    (ops.foldl SerializableWriteOp.pushTo b).run rows =
      ops.foldl SerializableWriteOp.applyTo (b.run rows) := by
  induction ops generalizing b with
  | nil => rfl
  | cons op ops ih =>
      rw [List.foldl_cons, List.foldl_cons, ih]
      congr 1
      cases op with
      | put key value => exact WriteBatch.run_put b key value rows
      | delete key => exact WriteBatch.run_delete b key rows
      | deleteRange start stop =>
          unfold SerializableWriteOp.pushTo WriteBatch.deleteRange WriteBatch.run
          rw [List.foldl_append]
          rfl

theorem foldl_sentBatches (es : List Entry) (rows : Rows) :
    (sentBatches es).foldl
        (fun rows batch => batch.ops.foldl SerializableWriteOp.applyTo rows) rows =
      es.foldl (fun rows e => (WriteBatch.mk (entryOps e)).run rows) rows := by
  induction es generalizing rows with
  | nil => rfl
  | cons e es ih =>
      obtain ⟨logId, payload⟩ := e
      cases payload with
      | blank => exact ih rows
      | membership mem => exact ih rows
      | normal cmd =>
          cases cmd with
          | noop => exact ih rows
          | writeBatch batch =>
              have hrun : (WriteBatch.mk batch.toWriteBatch.ops).run rows =
                  batch.ops.foldl SerializableWriteOp.applyTo rows := run_pushTo batch.ops .new rows
              rw [List.foldl_cons, ← ih]
              change _ = List.foldl _ ((WriteBatch.mk batch.toWriteBatch.ops).run rows) _
              rw [hrun]
              rfl

theorem get_userRows (es : List Entry) (k : Bytes) :
    (userRows es)[k]? = (Overwrite.last (entryWrites k) es).getD none := by
  have hstep : ∀ (rows : Rows) (e : Entry),
      ((WriteBatch.mk (entryOps e)).run rows)[k]? = (entryWrites k e).getD rows[k]? :=
    fun rows e => WriteOp.get_foldl_run k (entryOps e) rows
  have h := Overwrite.observe_foldl _ (fun rows : Rows => rows[k]?) hstep es ∅
  rw [OrdMap.get_empty] at h
  rw [userRows, foldl_sentBatches]
  exact h

theorem get_applied (es : List Entry) {k : Bytes} (hk : k < reservedKey) :
    (applied K es).data.rows[k]? = (userRows es)[k]? := by
  have h := get_apply K (StateMachineStore.new .new) es (smMetaKey_ne_of_lt hk)
  have hnone : (StateMachineStore.new .new).data.rows[k]? = none := OrdMap.get_empty k
  rw [hnone] at h
  rw [get_userRows]
  exact h

/-- **Crash recovery.**  After any entries and a crash after any number of batches, the reopened
store has the log id of the last entry that landed and the last membership up to it, and its user
keys are the fold of the write batches up to it. -/
theorem recovers (es : List Entry) (m : ℕ) :
    ∃ sm, StateMachineStore.open_ K ((applied K es).data.crash m) = .ok sm ∧
      sm = applied K (es.take m) ∧
      sm.inner.lastApplied = (es.take m).getLast?.map (·.logId) ∧
      sm.inner.lastMembership =
        (Overwrite.last setMembership (es.take m)).getD StoredMembership.default ∧
      ∀ k, k < reservedKey → sm.data.rows[k]? = (userRows (es.take m))[k]? := by
  refine ⟨applied K (es.take m), open_crash K es m, rfl, ?_, ?_, ?_⟩
  · unfold applied
    rw [apply_inner, foldl_entryMeta_lastApplied]
    exact Option.or_none
  · unfold applied
    rw [apply_inner, foldl_entryMeta_lastMembership]
    rfl
  · intro k hk
    exact get_applied K (es.take m) hk

/-! ### Snapshots -/

theorem mem_scan_user (data : Backend) (k v : Bytes) :
    (k, v) ∈ data.scan ⟨[], reservedKey⟩ ↔ data.rows[k]? = some v ∧ k < reservedKey := by
  have hcontains : (KeyRange.mk [] reservedKey).contains k = true ↔ k < reservedKey := by
    unfold KeyRange.contains reservedKey
    simp [List.nil_le]
  rw [Backend.mem_scan, hcontains]

/-- Installing a snapshot replaces the user keys by those of the scanned backend, whatever the
receiver held. -/
theorem get_run_installBatch (inner : PersistedMeta) (data : Backend) (rows : Rows) {k : Bytes}
    (hk : k < reservedKey) :
    ((StateMachineStore.installBatch K (StateMachineStore.snapshotPayload inner data)).run
      rows)[k]? = data.rows[k]? := by
  have hagree : ∀ x ∈ data.scan ⟨[], reservedKey⟩, ∀ y ∈ data.scan ⟨[], reservedKey⟩,
      x.1 = y.1 → x.2 = y.2 := by
    rintro ⟨a, v⟩ hx ⟨b, w⟩ hy rfl
    have hv := ((mem_scan_user data a v).mp hx).1
    rw [((mem_scan_user data a w).mp hy).1] at hv
    exact (Option.some.inj hv).symm
  unfold StateMachineStore.installBatch
  rw [WriteBatch.run_put, OrdMap.get_insert_of_ne _ _ (smMetaKey_ne_of_lt hk),
    WriteBatch.run_putAll]
  cases hrow : data.rows[k]? with
  | some v =>
      have hmem := (mem_scan_user data k v).mpr ⟨hrow, hk⟩
      exact OrdMap.get_insertAll_of_mem _ Prod.fst Prod.snd _ hagree (k, v) hmem
  | none =>
      have hnot : ∀ x ∈ data.scan ⟨[], reservedKey⟩, x.1 ≠ k := by
        rintro ⟨a, v⟩ hx rfl
        rw [((mem_scan_user data a v).mp hx).1] at hrow
        cases hrow
      have hclear := WriteBatch.get_run_deleteRange WriteBatch.new [] reservedKey rows k
      rw [if_pos ⟨List.nil_le k, hk⟩] at hclear
      exact (OrdMap.get_insertAll_of_notMem _ Prod.fst Prod.snd _ k hnot).trans hclear

/-- The install of an encoded snapshot succeeds. -/
theorem installSnapshot_eq (sm : StateMachineStore) (inner : PersistedMeta) (data : Backend) :
    sm.installSnapshot K (K.payload.encode (StateMachineStore.snapshotPayload inner data)) =
      .ok { data := sm.data.writeBatch
              (StateMachineStore.installBatch K (StateMachineStore.snapshotPayload inner data))
            inner := inner } := by
  unfold StateMachineStore.installSnapshot
  rw [K.payload.decode_encode]
  rfl

/-- Re-applying entries that were just applied changes no user key. -/
theorem get_apply_again (sm : StateMachineStore) (es : List Entry) {k : Bytes}
    (hk : k < reservedKey) :
    ((sm.apply K es).2.apply K es).2.data.rows[k]? = (sm.apply K es).2.data.rows[k]? := by
  have hne := smMetaKey_ne_of_lt hk
  have h := Overwrite.last_replay (entryWrites k) [] es [] sm.data.rows[k]?
  simp only [List.nil_append, List.append_nil] at h
  rw [get_apply K _ es hne, get_apply K sm es hne, h]

/-- The entries up to `i`, from there to `j`, and from there to `n`. -/
theorem take_split (log : List Entry) {i j n : ℕ} (hij : i ≤ j) (hjn : j ≤ n) :
    ∃ bs cs, log.take j = log.take i ++ bs ∧ log.take n = log.take i ++ bs ++ cs ∧
      (log.take n).drop i = bs ++ cs := by
  have hi : (log.take j).take i = log.take i := by rw [List.take_take, min_eq_left hij]
  have hj : (log.take n).take j = log.take j := by rw [List.take_take, min_eq_left hjn]
  have hin : (log.take n).take i = log.take i := by
    rw [List.take_take, min_eq_left (le_trans hij hjn)]
  have hbs : log.take j = log.take i ++ (log.take j).drop i := by
    rw [← hi, List.take_append_drop]
  have hcs : log.take n = log.take i ++ (log.take j).drop i ++ (log.take n).drop j := by
    rw [← hbs, ← hj, List.take_append_drop]
  refine ⟨_, _, hbs, hcs, ?_⟩
  have hcancel : log.take i ++ (log.take n).drop i =
      log.take i ++ ((log.take j).drop i ++ (log.take n).drop j) := by
    rw [← List.append_assoc, ← hcs, ← hin, List.take_append_drop]
  exact List.append_cancel_left hcancel

/-- The replica installs a snapshot with the metadata after `i` entries and the user data after
`j`, applies the entries from `i` to `n`, and ends with the user keys, the log position and the
membership of a replica that applied the first `n` entries in order. -/
def Converges (log : List Entry) (i j n : ℕ) (sm : StateMachineStore) : Prop :=
  ∃ sm', sm.installSnapshot K (K.payload.encode (StateMachineStore.snapshotPayload
      (applied K (log.take i)).inner (applied K (log.take j)).data)) = .ok sm' ∧
    (∀ k, k < reservedKey →
      (sm'.apply K ((log.take n).drop i)).2.data.rows[k]? =
        (applied K (log.take n)).data.rows[k]?) ∧
    (sm'.apply K ((log.take n).drop i)).2.inner = (applied K (log.take n)).inner

/-- **Fuzzy snapshots converge.**  For every log, every replica and all positions `i ≤ j ≤ n`; and
entries that were just applied may be applied again. -/
theorem fuzzy_snapshot_converges (log : List Entry) {i j n : ℕ} (hij : i ≤ j) (hjn : j ≤ n)
    (sm : StateMachineStore) :
    Converges K log i j n sm ∧
      ∀ block k, k < reservedKey →
        ((sm.apply K block).2.apply K block).2.data.rows[k]? =
          (sm.apply K block).2.data.rows[k]? := by
  obtain ⟨bs, cs, hj, hn, hrest⟩ := take_split log hij hjn
  refine ⟨⟨_, installSnapshot_eq K sm _ _, ?_, ?_⟩, fun block k hk => get_apply_again K sm block hk⟩
  · intro k hk
    have hne := smMetaKey_ne_of_lt hk
    rw [hrest, get_apply K _ _ hne, Backend.rows_writeBatch,
      get_run_installBatch K _ _ _ hk, hj, hn]
    unfold applied
    rw [get_apply K _ _ hne, get_apply K _ _ hne]
    exact Overwrite.last_replay (entryWrites k) (log.take i) bs cs _
  · rw [apply_inner, hrest, hn]
    unfold applied
    rw [apply_inner, apply_inner, List.append_assoc, ← List.foldl_append]

/-- A write of leader 1 at an index. -/
def writeEntry (index : UInt64) (ops : List WriteOp) : Entry :=
  ⟨⟨⟨1, 1⟩, index⟩, .normal (.batch ⟨ops⟩)⟩

/-- A key is put, deleted with its range, and put again. -/
def sampleLog : List Entry :=
  [writeEntry 1 [.put [2] [7]], writeEntry 2 [.deleteRange [1] [3]], writeEntry 3 [.put [2] [8]]]

theorem fuzzy_snapshot_converges_sample :
    1 ≤ 2 ∧ 2 ≤ 3 ∧ Converges bincode sampleLog 1 2 3 (.new .new) ∧
      ∀ block k, k < reservedKey →
        (((StateMachineStore.new .new).apply bincode block).2.apply bincode block).2.data.rows[k]? =
          ((StateMachineStore.new .new).apply bincode block).2.data.rows[k]? :=
  ⟨by decide, by decide,
    fuzzy_snapshot_converges bincode sampleLog (by decide) (by decide) (.new .new)⟩

end AresaDb.Raft
