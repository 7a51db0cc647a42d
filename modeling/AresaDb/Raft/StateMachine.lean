import AresaDb.Raft.Command

/-! # The key-value state machine

`StateMachineStore` of `aresadb-raft/src/state_machine.rs`: the user keys of a Raft group and the
metadata of the last applied entry, in one backend.  An entry is one batch, its own operations
followed by the metadata row, so that the log position moves with the data; the row lives under
the reserved byte `0xff`, in the same keyspace as everything a client may write.

A snapshot takes the metadata from memory and then scans the keys below `0xff`; installing it
clears these keys, puts the scanned ones and overwrites the metadata row in one batch. -/

namespace AresaDb.Raft

open ByteOrder AresaDb.Core
open AresaDb.Pd (LeaderId LogId Membership StoredMembership)

/-- The reserved byte; user keys are those below it. -/
def reservedKey : Bytes := [0xff]

/-- The key of the metadata row, `\xff/sm/meta`. -/
def smMetaKey : Bytes := [0xff, 47, 115, 109, 47, 109, 101, 116, 97]

/-- The backend and the metadata cached in memory. -/
structure StateMachineStore where
  data : Backend
  inner : PersistedMeta
deriving DecidableEq

/-! ### One entry -/

/-- The metadata after an entry. -/
def entryMeta (inner : PersistedMeta) (e : Entry) : PersistedMeta :=
  { lastApplied := some e.logId
    lastMembership :=
      match e.payload with
      | .membership mem => ⟨some e.logId, mem⟩
      | _ => inner.lastMembership }

/-- The operations an entry carries. -/
def entryOps (e : Entry) : List WriteOp :=
  match e.payload with
  | .normal (.writeBatch sb) => sb.toWriteBatch.ops
  | .normal .noop => []
  | .blank => []
  | .membership _ => []

def entryResponse (e : Entry) : AresaResponse :=
  match e.payload with
  | .normal (.writeBatch sb) => ⟨UInt32.ofNat sb.ops.length⟩
  | .normal .noop => .default
  | .blank => .default
  | .membership _ => .default

namespace StateMachineStore

variable (K : KvCodec)

/-- The batch of an entry: its operations, then the metadata row. -/
def entryBatch (inner : PersistedMeta) (e : Entry) : WriteBatch :=
  (WriteBatch.mk (entryOps e)).put smMetaKey (K.kvMeta.encode (entryMeta inner e))

/-- One round of `apply`. -/
def applyEntry (sm : StateMachineStore) (e : Entry) : StateMachineStore where
  data := sm.data.writeBatch (entryBatch K sm.inner e)
  inner := entryMeta sm.inner e

/-- Apply entries in order, one response each. -/
def apply (sm : StateMachineStore) (es : List Entry) : List AresaResponse × StateMachineStore :=
  es.foldl (fun acc e => (acc.1 ++ [entryResponse e], acc.2.applyEntry K e)) ([], sm)

/-! ### Opening -/

def new (data : Backend) : StateMachineStore := ⟨data, .default⟩

/-- Rehydrate the metadata from its row. -/
def loadPersisted (sm : StateMachineStore) : Except Fault StateMachineStore :=
  match sm.data.get smMetaKey with
  | none => .ok sm
  | some raw =>
      match K.kvMeta.decode raw with
      | none => .error .bincode
      | some inner => .ok { sm with inner }

def open_ (data : Backend) : Except Fault StateMachineStore := (new data).loadPersisted K

/-! ### Snapshots -/

/-- The payload from the metadata and the backend that `build_snapshot` reads, one after the
other. -/
def snapshotPayload (inner : PersistedMeta) (data : Backend) : SnapshotPayload :=
  ⟨inner.lastApplied, inner.lastMembership, data.scan ⟨[], reservedKey⟩⟩

/-- The batch that replaces the user keys and the metadata row. -/
def installBatch (payload : SnapshotPayload) : WriteBatch :=
  let batch := WriteBatch.new.deleteRange [] reservedKey
  let batch := batch.putAll Prod.fst Prod.snd payload.data
  batch.put smMetaKey (K.kvMeta.encode ⟨payload.lastApplied, payload.lastMembership⟩)

def installSnapshot (sm : StateMachineStore) (data : Bytes) : Except Fault StateMachineStore :=
  match K.payload.decode data with
  | none => .error .bincode
  | some payload =>
      .ok { data := sm.data.writeBatch (installBatch K payload)
            inner := ⟨payload.lastApplied, payload.lastMembership⟩ }

end StateMachineStore

/-! ### What a run of entries leaves behind -/

section Runs

variable (K : KvCodec)

theorem apply_eq (sm : StateMachineStore) (es : List Entry) :
    sm.apply K es = (es.map entryResponse, es.foldl (StateMachineStore.applyEntry K) sm) := by
  have h : ∀ (es : List Entry) (resps : List AresaResponse) (sm : StateMachineStore),
      es.foldl (fun acc e => (acc.1 ++ [entryResponse e], acc.2.applyEntry K e)) (resps, sm) =
        (resps ++ es.map entryResponse, es.foldl (StateMachineStore.applyEntry K) sm) := by
    intro es
    induction es with
    | nil => simp
    | cons e es ih => simp [ih]
  exact h es [] sm

/-- One response per entry, in order. -/
@[simp] theorem apply_responses (sm : StateMachineStore) (es : List Entry) :
    (sm.apply K es).1 = es.map entryResponse := by
  rw [apply_eq]

theorem apply_append (sm : StateMachineStore) (as bs : List Entry) :
    (sm.apply K (as ++ bs)).2 = ((sm.apply K as).2.apply K bs).2 := by
  simp only [apply_eq, List.foldl_append]

@[simp] theorem apply_inner (sm : StateMachineStore) (es : List Entry) :
    (sm.apply K es).2.inner = es.foldl entryMeta sm.inner := by
  rw [apply_eq]
  induction es generalizing sm with
  | nil => rfl
  | cons e es ih => exact ih (sm.applyEntry K e)

/-- The log id of the last entry. -/
theorem foldl_entryMeta_lastApplied (es : List Entry) (inner : PersistedMeta) :
    (es.foldl entryMeta inner).lastApplied = (es.getLast?.map (·.logId)).or inner.lastApplied := by
  induction es generalizing inner with
  | nil => rfl
  | cons e es ih =>
      rw [List.foldl_cons, ih, List.getLast?_cons]
      cases es.getLast? with
      | none => rfl
      | some d => rfl

/-- The membership an entry sets. -/
def setMembership (e : Entry) : Option StoredMembership :=
  match e.payload with
  | .membership mem => some ⟨some e.logId, mem⟩
  | _ => none

/-- The membership of the last membership entry. -/
theorem foldl_entryMeta_lastMembership (es : List Entry) (inner : PersistedMeta) :
    (es.foldl entryMeta inner).lastMembership =
      (Overwrite.last setMembership es).getD inner.lastMembership := by
  apply Overwrite.observe_foldl setMembership (fun m : PersistedMeta => m.lastMembership)
  intro m e
  obtain ⟨logId, payload⟩ := e
  cases payload <;> rfl

/-- What an entry leaves under a key, when it touches it. -/
def entryWrites (k : Bytes) (e : Entry) : Option (Option Bytes) :=
  Overwrite.last (WriteOp.writes k) (entryOps e)

/-- A key other than that of the metadata row is written by the entries' own operations. -/
theorem get_apply (sm : StateMachineStore) (es : List Entry) {k : Bytes} (hk : smMetaKey ≠ k) :
    (sm.apply K es).2.data.rows[k]? =
      (Overwrite.last (entryWrites k) es).getD sm.data.rows[k]? := by
  rw [apply_eq]
  apply Overwrite.observe_foldl (entryWrites k)
    (fun sm : StateMachineStore => sm.data.rows[k]?)
  intro sm e
  show (sm.data.writeBatch _).rows[k]? = _
  rw [Backend.rows_writeBatch, StateMachineStore.entryBatch, WriteBatch.run_put,
    OrdMap.get_insert_of_ne _ _ hk]
  exact WriteOp.get_foldl_run k (entryOps e) _

/-- The metadata row comes last in its batch, so nothing in the entry can hide it. -/
theorem get_smMetaKey_applyEntry (sm : StateMachineStore) (e : Entry) :
    (sm.applyEntry K e).data.rows[smMetaKey]? = some (K.kvMeta.encode (entryMeta sm.inner e)) := by
  show (sm.data.writeBatch _).rows[smMetaKey]? = _
  rw [Backend.rows_writeBatch, StateMachineStore.entryBatch, WriteBatch.run_put,
    OrdMap.get_insert_self]

theorem smMetaKey_ne_of_lt {k : Bytes} (h : k < reservedKey) : smMetaKey ≠ k := by
  rintro rfl
  exact absurd h (by decide)

end Runs

end AresaDb.Raft
