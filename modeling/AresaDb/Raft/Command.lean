import AresaDb.Raft.LogStore

/-! # Commands and entries of a user-data group

The replicated command of `aresadb-raft/src/command.rs`, the log entries that carry it, and the
records that the state machine persists and ships in a snapshot
(`aresadb-raft/src/state_machine.rs`).  A command carries its write batch in a form of its own
for serialisation; going there and back keeps the batch (`toWriteBatch_ofWriteBatch`).

`KvCodec` is what the state machine relies on: each record reads back as written.  `bincode`,
with its fixed-width words and 32-bit enumeration tags, is such a codec. -/

namespace AresaDb.Raft

open ByteOrder AresaDb.Core
open AresaDb.Pd (LeaderId LogId Membership StoredMembership)

/-- A write operation as it is serialised. -/
inductive SerializableWriteOp where
  | put (key value : Bytes)
  | delete (key : Bytes)
  | deleteRange (start stop : Bytes)
deriving DecidableEq, Repr

structure SerializableWriteBatch where
  ops : List SerializableWriteOp
deriving DecidableEq, Repr

def SerializableWriteOp.ofWriteOp : WriteOp → SerializableWriteOp
  | .put key value => .put key value
  | .delete key => .delete key
  | .deleteRange start stop => .deleteRange start stop

def SerializableWriteBatch.ofWriteBatch (b : WriteBatch) : SerializableWriteBatch :=
  ⟨b.ops.map .ofWriteOp⟩

/-- Push a serialised operation on a batch. -/
def SerializableWriteOp.pushTo (b : WriteBatch) : SerializableWriteOp → WriteBatch
  | put key value => b.put key value
  | delete key => b.delete key
  | deleteRange start stop => b.deleteRange start stop

def SerializableWriteBatch.toWriteBatch (s : SerializableWriteBatch) : WriteBatch :=
  s.ops.foldl SerializableWriteOp.pushTo WriteBatch.new

/-- The replicated command. -/
inductive AresaCommand where
  | noop
  | writeBatch (batch : SerializableWriteBatch)
deriving DecidableEq, Repr

/-- Wrap a write batch into a command. -/
def AresaCommand.batch (b : WriteBatch) : AresaCommand := .writeBatch (.ofWriteBatch b)

/-- How many operations the state machine executed, as a 32-bit count. -/
structure AresaResponse where
  opsApplied : UInt32
deriving DecidableEq, Repr

def AresaResponse.default : AresaResponse := ⟨0⟩

inductive EntryPayload where
  | blank
  | normal (cmd : AresaCommand)
  | membership (mem : Membership)
deriving DecidableEq, Repr

/-- A log entry of a user-data group. -/
structure Entry where
  logId : LogId
  payload : EntryPayload
deriving DecidableEq, Repr

/-- The metadata row of the state machine. -/
structure PersistedMeta where
  lastApplied : Option LogId
  lastMembership : StoredMembership
deriving DecidableEq, Repr

def PersistedMeta.default : PersistedMeta := ⟨none, .default⟩

/-- The content of a snapshot. -/
structure SnapshotPayload where
  lastApplied : Option LogId
  lastMembership : StoredMembership
  data : List (Bytes × Bytes)
deriving DecidableEq, Repr

/-- The serialisation of the metadata row, of snapshots and of client batches. -/
structure KvCodec where
  kvMeta : RowCodec PersistedMeta
  payload : RowCodec SnapshotPayload
  batch : RowCodec SerializableWriteBatch

/-! ### Conversions -/

theorem SerializableWriteOp.foldl_pushTo (ops : List WriteOp) (b : WriteBatch) :
    (ops.map SerializableWriteOp.ofWriteOp).foldl SerializableWriteOp.pushTo b =
      ⟨b.ops ++ ops⟩ := by
  induction ops generalizing b with
  | nil => simp
  | cons op ops ih =>
      rw [List.map_cons, List.foldl_cons, ih]
      cases op <;> simp [pushTo, ofWriteOp, WriteBatch.put, WriteBatch.delete,
        WriteBatch.deleteRange]

/-- A batch survives its trip through the command. -/
@[simp] theorem SerializableWriteBatch.toWriteBatch_ofWriteBatch (b : WriteBatch) :
    (ofWriteBatch b).toWriteBatch = b :=
  SerializableWriteOp.foldl_pushTo b.ops WriteBatch.new

/-! ### bincode -/

namespace Bincode

open AresaDb.Pd.Bincode (logId membership storedMembership)

def writeOp : Codec SerializableWriteOp where
  put
    | .put key value => 0 :: 0 :: 0 :: 0 :: (Codec.byte.list.pair Codec.byte.list).put (key, value)
    | .delete key => 1 :: 0 :: 0 :: 0 :: Codec.byte.list.put key
    | .deleteRange start stop =>
        2 :: 0 :: 0 :: 0 :: (Codec.byte.list.pair Codec.byte.list).put (start, stop)
  get
    | 0 :: 0 :: 0 :: 0 :: b =>
        ((Codec.byte.list.pair Codec.byte.list).get b).map fun p => (.put p.1.1 p.1.2, p.2)
    | 1 :: 0 :: 0 :: 0 :: b => (Codec.byte.list.get b).map fun p => (.delete p.1, p.2)
    | 2 :: 0 :: 0 :: 0 :: b =>
        ((Codec.byte.list.pair Codec.byte.list).get b).map fun p => (.deleteRange p.1.1 p.1.2, p.2)
    | _ => none
  get_put := by
    intro op rest
    cases op <;> simp [Codec.get_put]

def batch : Codec SerializableWriteBatch :=
  writeOp.list.iso (fun b => b.ops) (fun ops => ⟨ops⟩) fun _ => rfl

def command : Codec AresaCommand where
  put
    | .noop => [0, 0, 0, 0]
    | .writeBatch b => 1 :: 0 :: 0 :: 0 :: batch.put b
  get
    | 0 :: 0 :: 0 :: 0 :: b => some (.noop, b)
    | 1 :: 0 :: 0 :: 0 :: b => (batch.get b).map fun p => (.writeBatch p.1, p.2)
    | _ => none
  get_put := by
    intro cmd rest
    cases cmd <;> simp [Codec.get_put]

def entryPayload : Codec EntryPayload where
  put
    | .blank => [0, 0, 0, 0]
    | .normal cmd => 1 :: 0 :: 0 :: 0 :: command.put cmd
    | .membership mem => 2 :: 0 :: 0 :: 0 :: membership.put mem
  get
    | 0 :: 0 :: 0 :: 0 :: b => some (.blank, b)
    | 1 :: 0 :: 0 :: 0 :: b => (command.get b).map fun p => (.normal p.1, p.2)
    | 2 :: 0 :: 0 :: 0 :: b => (membership.get b).map fun p => (.membership p.1, p.2)
    | _ => none
  get_put := by
    intro p rest
    cases p <;> simp [Codec.get_put]

def entry : Codec Entry :=
  (logId.pair entryPayload).iso (fun e => (e.logId, e.payload)) (fun (l, p) => ⟨l, p⟩) fun _ => rfl

def vote : Codec Vote :=
  (Codec.word.pair (Codec.word.pair Codec.byte)).iso
    (fun v => (v.leaderId.term, v.leaderId.nodeId, if v.committed then 1 else 0))
    (fun (t, n, c) => ⟨⟨t, n⟩, c == 1⟩) fun v => by
      obtain ⟨⟨t, n⟩, c⟩ := v
      cases c <;> rfl

def kvMeta : Codec PersistedMeta :=
  (logId.option.pair storedMembership).iso (fun m => (m.lastApplied, m.lastMembership))
    (fun (l, m) => ⟨l, m⟩) fun _ => rfl

def payload : Codec SnapshotPayload :=
  (logId.option.pair (storedMembership.pair (Codec.byte.list.pair Codec.byte.list).list)).iso
    (fun p => (p.lastApplied, p.lastMembership, p.data)) (fun (l, m, d) => ⟨l, m, d⟩) fun _ => rfl

end Bincode

/-- The codec of the state machine in the release build. -/
def bincode : KvCodec where
  kvMeta := Bincode.kvMeta.toRow
  payload := Bincode.payload.toRow
  batch := Bincode.batch.toRow

/-- The type configuration of the user-data groups. -/
def typeConfig : LogConfig Entry where
  logId e := e.logId
  entry := Bincode.entry.toRow
  vote := Bincode.vote.toRow
  pointer := AresaDb.Pd.Bincode.logId.option.toRow

end AresaDb.Raft
