import AresaDb.Core.Storage

/-! # The three engines

`write_batch` as the engines run it: the reference `MemoryBackend` (`aresadb-core/src/memory.rs`),
redb (`aresadb-engine-redb/src/lib.rs`) and the LSM engine over fjall
(`aresadb-engine-lsm/src/lib.rs`).  None of the three stores has a range delete, so each engine
collects the keys of the range and removes them one by one.  The first two collect from the table
they are mutating; the LSM engine collects from the keyspace as it was before the batch and only
stages the removes.

The contract is the left-to-right fold `WriteBatch.run`.  Memory and redb compute it
(`MemoryBackend.writeBatch_eq`, `Redb.writeBatch_eq`).  The LSM engine misses the keys that the
batch itself put, and `engines_agree_iff` says exactly when that shows. -/

namespace AresaDb.Core

open ByteOrder

/-- A range delete whose bounds are in order; any other operation. -/
def WriteOp.ordered : WriteOp → Bool
  | put _ _ => true
  | delete _ => true
  | deleteRange start stop => decide (start ≤ stop)

/-- Every range delete of the batch has its bounds in order. -/
def WriteBatch.ordered (b : WriteBatch) : Bool := b.ops.all WriteOp.ordered

/-! ### Memory -/

namespace MemoryBackend

/-- The keys of `BTreeMap::range(start..end)`; the standard library panics when `start > end`. -/
def range (data : Rows) (start stop : Bytes) : Option (List Bytes) :=
  if stop < start then none else some (data.keysIn start stop)

/-- One operation on the locked map, `none` being a panic. -/
def applyOp (data : Rows) : WriteOp → Option Rows
  | .put key value => some (data.insert key value)
  | .delete key => some (data.erase key)
  | .deleteRange start stop => do
      let keys ← range data start stop
      return data.eraseAll keys

def writeBatch (data : Rows) (batch : WriteBatch) : Option Rows :=
  batch.ops.foldlM applyOp data

end MemoryBackend

/-! ### redb -/

namespace Redb

/-- One operation on the open table of the write transaction. -/
def applyOp (table : Rows) : WriteOp → Rows
  | .put key value => table.insert key value
  | .delete key => table.erase key
  | .deleteRange start stop => table.eraseAll (table.keysIn start stop)

/-- The table after the commit. -/
def writeBatch (table : Rows) (batch : WriteBatch) : Rows := batch.ops.foldl applyOp table

end Redb

/-! ### LSM -/

namespace Lsm

/-- An element of fjall's `OwnedWriteBatch`. -/
inductive Staged where
  | insert (key value : Bytes)
  | remove (key : Bytes)
deriving DecidableEq, Repr

/-- The staged writes are applied in order by the commit. -/
def Staged.commit (rows : Rows) : Staged → Rows
  | insert key value => rows.insert key value
  | remove key => rows.erase key

/-- What an operation stages.  A range delete is expanded against the keyspace, where nothing of
the batch has landed yet. -/
def stage (keyspace : Rows) : WriteOp → List Staged
  | .put key value => [.insert key value]
  | .delete key => [.remove key]
  | .deleteRange start stop => (keyspace.keysIn start stop).map .remove

def applyOpsAndPersist (keyspace : Rows) (ops : List WriteOp) : Rows :=
  let batch := ops.flatMap (stage keyspace)
  batch.foldl Staged.commit keyspace

end Lsm

/-! ### Memory and redb compute the fold -/

theorem Redb.applyOp_eq (table : Rows) (op : WriteOp) : Redb.applyOp table op = op.run table := by
  apply OrdMap.ext
  intro k
  rw [WriteOp.get_run]
  cases op with
  | put key value => exact WriteOp.get_run k table (.put key value)
  | delete key => exact WriteOp.get_run k table (.delete key)
  | deleteRange start stop =>
      show (table.eraseAll (table.keysIn start stop))[k]? = _
      rw [OrdMap.get_eraseAll_keysIn, WriteOp.writes]
      split_ifs <;> rfl

theorem Redb.writeBatch_eq (table : Rows) (batch : WriteBatch) :
    Redb.writeBatch table batch = batch.run table := by
  have h : Redb.applyOp = WriteOp.run := funext fun t => funext (Redb.applyOp_eq t)
  unfold Redb.writeBatch WriteBatch.run
  rw [h]

/-- On ordered bounds the memory backend does what redb does; on inverted ones it panics. -/
theorem MemoryBackend.applyOp_eq (data : Rows) (op : WriteOp) :
    MemoryBackend.applyOp data op = if op.ordered then some (op.run data) else none := by
  cases op with
  | put key value => rfl
  | delete key => rfl
  | deleteRange start stop =>
      have herase := Redb.applyOp_eq data (.deleteRange start stop)
      show (MemoryBackend.range data start stop).bind _ = _
      unfold MemoryBackend.range WriteOp.ordered
      by_cases h : start ≤ stop
      · rw [if_neg (not_lt.mpr h), if_pos (decide_eq_true h), ← herase]
        rfl
      · rw [if_pos (not_le.mp h), if_neg (by simpa using h)]
        rfl

/-- **The reference backend.**  A batch panics exactly when one of its range deletes is inverted,
and is the fold of its operations otherwise. -/
theorem MemoryBackend.writeBatch_eq (data : Rows) (batch : WriteBatch) :
    MemoryBackend.writeBatch data batch =
      if batch.ordered then some (batch.run data) else none := by
  obtain ⟨ops⟩ := batch
  show ops.foldlM MemoryBackend.applyOp data =
    if ops.all WriteOp.ordered then some (ops.foldl WriteOp.run data) else none
  induction ops generalizing data with
  | nil => rfl
  | cons op ops ih =>
      rw [List.foldlM_cons, MemoryBackend.applyOp_eq, List.all_cons, List.foldl_cons]
      cases h : op.ordered with
      | true =>
          rw [if_pos rfl, Bool.true_and]
          exact ih (op.run data)
      | false => rfl

/-! ### Where the LSM engine differs -/

/-- What the LSM engine stages for a key: a range delete only when the keyspace holds the key. -/
def Lsm.writes (keyspace : Rows) (k : Bytes) : WriteOp → Option (Option Bytes)
  | .put key value => (WriteOp.put key value).writes k
  | .delete key => (WriteOp.delete key).writes k
  | .deleteRange start stop =>
      if (start ≤ k ∧ k < stop) ∧ keyspace[k]? ≠ none then some none else none

theorem Lsm.get_stage (keyspace : Rows) (k : Bytes) (rows : Rows) (op : WriteOp) :
    ((Lsm.stage keyspace op).foldl Lsm.Staged.commit rows)[k]? =
      (Lsm.writes keyspace k op).getD rows[k]? := by
  cases op with
  | put key value => exact WriteOp.get_run k rows (.put key value)
  | delete key => exact WriteOp.get_run k rows (.delete key)
  | deleteRange start stop =>
      have herase : (Lsm.stage keyspace (.deleteRange start stop)).foldl Lsm.Staged.commit rows =
          rows.eraseAll (keyspace.keysIn start stop) := List.foldl_map
      rw [herase, OrdMap.get_eraseAll, Lsm.writes]
      simp only [OrdMap.mem_keysIn]
      split_ifs <;> rfl

theorem Lsm.get_applyOpsAndPersist (keyspace : Rows) (ops : List WriteOp) (k : Bytes) :
    (Lsm.applyOpsAndPersist keyspace ops)[k]? =
      (Overwrite.last (Lsm.writes keyspace k) ops).getD keyspace[k]? := by
  unfold Lsm.applyOpsAndPersist
  rw [List.foldl_flatMap]
  exact Overwrite.observe_foldl (Lsm.writes keyspace k) (fun rows : Rows => rows[k]?)
    (Lsm.get_stage keyspace k) ops keyspace

/-- The operation names the key. -/
def WriteOp.names (k : Bytes) : WriteOp → Bool
  | put key _ => key == k
  | delete key => key == k
  | deleteRange _ _ => false

/-- The operation is a range delete over the key. -/
def WriteOp.covers (k : Bytes) : WriteOp → Bool
  | put _ _ => false
  | delete _ => false
  | deleteRange start stop => decide (start ≤ k ∧ k < stop)

/-- The batch puts a key that the keyspace does not hold, range-deletes it later, and does not
name it again after the put. -/
def Escapes (keyspace : Rows) (ops : List WriteOp) (k : Bytes) : Prop :=
  keyspace[k]? = none ∧ ∃ value before after, ops = before ++ .put k value :: after ∧
    (∀ op ∈ after, op.names k = false) ∧ ∃ op ∈ after, op.covers k = true

/-- A key of the keyspace is treated as the contract says. -/
theorem Lsm.writes_of_held {keyspace : Rows} {k : Bytes} (h : keyspace[k]? ≠ none) (op : WriteOp) :
    Lsm.writes keyspace k op = op.writes k := by
  cases op with
  | put key value => rfl
  | delete key => rfl
  | deleteRange start stop => simp [Lsm.writes, WriteOp.writes, h]

/-- For a key outside the keyspace only the operations that name it count. -/
theorem Lsm.writes_of_absent {keyspace : Rows} {k : Bytes} (h : keyspace[k]? = none)
    (op : WriteOp) : Lsm.writes keyspace k op = if op.names k then op.writes k else none := by
  cases op with
  | put key value => simp [Lsm.writes, WriteOp.writes, WriteOp.names]
  | delete key => simp [Lsm.writes, WriteOp.writes, WriteOp.names]
  | deleteRange start stop => simp [Lsm.writes, WriteOp.names, h]

theorem WriteOp.writes_of_not_names {k : Bytes} {op : WriteOp} (h : op.names k = false) :
    op.writes k = if op.covers k then some none else none := by
  cases op with
  | put key value => simpa [WriteOp.writes, WriteOp.names, WriteOp.covers] using h
  | delete key => simpa [WriteOp.writes, WriteOp.names, WriteOp.covers] using h
  | deleteRange start stop => simp [WriteOp.writes, WriteOp.covers]

theorem WriteOp.last_writes_of_not_names {k : Bytes} {ops : List WriteOp}
    (h : ∀ op ∈ ops, op.names k = false) :
    Overwrite.last (WriteOp.writes k) ops =
      if ops.any (WriteOp.covers k) then some none else none := by
  induction ops with
  | nil => rfl
  | cons op ops ih =>
      rw [Overwrite.last_cons, ih fun p hp => h p (List.mem_cons_of_mem _ hp),
        WriteOp.writes_of_not_names (h op List.mem_cons_self), List.any_cons]
      cases op.covers k with
      | true => cases ops.any (WriteOp.covers k) <;> rfl
      | false => cases ops.any (WriteOp.covers k) <;> rfl

/-- A key outside the keyspace is left alone by the operations that do not name it. -/
theorem Lsm.writes_eq_none_iff {keyspace : Rows} {k : Bytes} (h : keyspace[k]? = none)
    (op : WriteOp) : Lsm.writes keyspace k op = none ↔ op.names k = false := by
  rw [Lsm.writes_of_absent h]
  cases op with
  | put key value => simp [WriteOp.writes, WriteOp.names]
  | delete key => simp [WriteOp.writes, WriteOp.names]
  | deleteRange start stop => simp [WriteOp.names]

/-- An escaping key stays in the LSM keyspace and is gone from the fold. -/
theorem Escapes.differ {keyspace : Rows} {ops : List WriteOp} {k : Bytes}
    (h : Escapes keyspace ops k) :
    (Lsm.applyOpsAndPersist keyspace ops)[k]? ≠ (ops.foldl WriteOp.run keyspace)[k]? := by
  obtain ⟨habsent, value, before, after, rfl, hafter, op, hop, hcovers⟩ := h
  have hput : WriteOp.writes k (.put k value) = some (some value) := by simp [WriteOp.writes]
  have hlsm : Overwrite.last (Lsm.writes keyspace k) (before ++ .put k value :: after) =
      some (some value) := by
    rw [Overwrite.last_eq_some_iff]
    exact ⟨before, _, after, rfl, hput,
      fun p hp => (Lsm.writes_eq_none_iff habsent p).mpr (hafter p hp)⟩
  have hany : after.any (WriteOp.covers k) = true := List.any_eq_true.mpr ⟨op, hop, hcovers⟩
  have hfold : Overwrite.last (WriteOp.writes k) (before ++ .put k value :: after) = some none := by
    rw [Overwrite.last_append, Overwrite.last_cons, WriteOp.last_writes_of_not_names hafter,
      if_pos hany]
    rfl
  rw [Lsm.get_applyOpsAndPersist, WriteOp.get_foldl_run, hlsm, hfold]
  exact Option.some_ne_none value

/-- Any other key ends as the fold says. -/
theorem Lsm.get_eq_of_not_escapes {keyspace : Rows} {ops : List WriteOp} {k : Bytes}
    (h : ¬Escapes keyspace ops k) :
    (Lsm.applyOpsAndPersist keyspace ops)[k]? = (ops.foldl WriteOp.run keyspace)[k]? := by
  rw [Lsm.get_applyOpsAndPersist, WriteOp.get_foldl_run]
  by_cases habsent : keyspace[k]? = none
  · cases hlast : Overwrite.last (Lsm.writes keyspace k) ops with
    | none =>
        have hnames : ∀ op ∈ ops, op.names k = false := fun op hop =>
          (Lsm.writes_eq_none_iff habsent op).mp
            ((Overwrite.last_eq_none_iff _ ops).mp hlast op hop)
        rw [WriteOp.last_writes_of_not_names hnames, habsent]
        cases ops.any (WriteOp.covers k) <;> rfl
    | some x =>
        obtain ⟨before, op, after, rfl, hop, hafter⟩ := (Overwrite.last_eq_some_iff _ _ _).mp hlast
        have hnames : ∀ p ∈ after, p.names k = false := fun p hp =>
          (Lsm.writes_eq_none_iff habsent p).mp (hafter p hp)
        rw [Lsm.writes_of_absent habsent] at hop
        have hx : op.writes k = some x := by
          cases hn : op.names k with
          | true => rwa [hn, if_pos rfl] at hop
          | false => simp [hn] at hop
        rw [Overwrite.last_append, Overwrite.last_cons, hx,
          WriteOp.last_writes_of_not_names hnames]
        cases hany : after.any (WriteOp.covers k) with
        | false => rfl
        | true =>
            -- a range delete follows, so the operation that names the key is not a put
            cases op with
            | put key value =>
                have hkey : key = k := by
                  by_contra hne
                  simp [WriteOp.names, hne] at hop
                subst hkey
                obtain ⟨p, hp, hcovers⟩ := List.any_eq_true.mp hany
                exact absurd ⟨habsent, value, before, after, rfl, hnames, p, hp, hcovers⟩ h
            | delete key =>
                have hnone : x = none := by
                  simp only [WriteOp.writes] at hx
                  split_ifs at hx
                  exact (Option.some.inj hx).symm
                rw [hnone]
                rfl
            | deleteRange start stop => simp [WriteOp.names] at hop
  · have hw : Lsm.writes keyspace k = WriteOp.writes k :=
      funext fun op => Lsm.writes_of_held habsent op
    rw [hw]

/-- The three engines leave the fold of the operations behind. -/
def EnginesAgree (rows : Rows) (batch : WriteBatch) : Prop :=
  Lsm.applyOpsAndPersist rows batch.ops = batch.run rows ∧
    MemoryBackend.writeBatch rows batch = some (batch.run rows) ∧
    Redb.writeBatch rows batch = batch.run rows

/-- **When the engines agree.**  On a batch of ordered range deletes the three engines leave the
same content, the fold of the operations, exactly when no key is put by the batch into a keyspace
without it and then only range-deleted. -/
theorem engines_agree_iff (rows : Rows) (batch : WriteBatch) (h : batch.ordered = true) :
    EnginesAgree rows batch ↔ ∀ k, ¬Escapes rows batch.ops k := by
  constructor
  · rintro ⟨hlsm, _, _⟩ k hk
    apply hk.differ
    rw [hlsm]
    rfl
  · intro hesc
    refine ⟨OrdMap.ext fun k => Lsm.get_eq_of_not_escapes (hesc k), ?_,
      Redb.writeBatch_eq rows batch⟩
    rw [MemoryBackend.writeBatch_eq, if_pos h]

/-- A batch that deletes a range and then writes into it. -/
theorem engines_agree_iff_rewrite :
    (WriteBatch.mk [.deleteRange [1] [3], .put [2] [7]]).ordered = true ∧
      (EnginesAgree ∅ ⟨[.deleteRange [1] [3], .put [2] [7]]⟩ ↔
        ∀ k, ¬Escapes ∅ [.deleteRange [1] [3], .put [2] [7]] k) :=
  ⟨by decide, engines_agree_iff ∅ ⟨[.deleteRange [1] [3], .put [2] [7]]⟩ (by decide)⟩

/-- A batch that writes a key and then deletes a range over it. -/
theorem engines_disagree_on_put_then_deleteRange :
    (WriteBatch.mk [.put [2] [7], .deleteRange [1] [3]]).ordered = true ∧
      ¬EnginesAgree ∅ ⟨[.put [2] [7], .deleteRange [1] [3]]⟩ := by
  refine ⟨by decide, ?_⟩
  rintro ⟨hlsm, _, _⟩
  have hesc : Escapes ∅ [.put [2] [7], .deleteRange [1] [3]] [2] :=
    ⟨OrdMap.get_empty _, [7], [], [.deleteRange [1] [3]], rfl, by decide, _,
      List.mem_singleton.mpr rfl, by decide⟩
  apply hesc.differ
  rw [hlsm]
  rfl

end AresaDb.Core
