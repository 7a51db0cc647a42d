import AresaDb.Lib.Codec
import AresaDb.Pd.Types

/-! # Log entries, persisted meta and snapshots

The data that the Raft adapter of the placement driver reads and writes
(`aresadb-pd/src/raft/state_machine.rs`), with the openraft records it is made of: log ids,
memberships and log entries.

Rows and snapshots are serialised; `PdCodec` is what the placement driver relies on, that each
record reads back as written.  `bincode` is such a codec: fixed-width little-endian words, 64-bit
lengths, one-byte option tags and 32-bit enumeration tags, fields in declaration order. -/

namespace AresaDb.Pd

open ByteOrder

structure LeaderId where
  term : UInt64
  nodeId : NodeId
deriving DecidableEq, Repr

/-- Position of an entry in the Raft log. -/
structure LogId where
  leaderId : LeaderId
  index : UInt64
deriving DecidableEq, Repr

/-- Joint voter configurations and the known nodes with their addresses. -/
structure Membership where
  configs : List (List NodeId)
  nodes : List (NodeId × String)
deriving DecidableEq, Repr

structure StoredMembership where
  logId : Option LogId
  membership : Membership
deriving DecidableEq, Repr

/-- The membership of a state machine that has applied none. -/
def StoredMembership.default : StoredMembership := ⟨none, ⟨[], []⟩⟩

inductive EntryPayload where
  | blank
  | normal (cmd : PdCommand)
  | membership (mem : Membership)
deriving DecidableEq, Repr

/-- A committed log entry. -/
structure Entry where
  logId : LogId
  payload : EntryPayload
deriving DecidableEq, Repr

/-- The Raft meta row. -/
structure PersistedPdMeta where
  lastApplied : Option LogId
  lastMembership : StoredMembership
deriving DecidableEq, Repr

def PersistedPdMeta.default : PersistedPdMeta := ⟨none, .default⟩

/-- The content of a snapshot. -/
structure SnapshotPayload where
  lastApplied : Option LogId
  lastMembership : StoredMembership
  nextRangeId : RangeId
  ranges : List RangeDescriptor
  nodes : List NodeInfo
deriving DecidableEq, Repr

/-- The serialisation of rows and snapshots: whatever is written reads back as it was. -/
structure PdCodec where
  range : RowCodec RangeDescriptor
  node : RowCodec NodeInfo
  pdMeta : RowCodec PersistedPdMeta
  payload : RowCodec SnapshotPayload

/-! ### bincode -/

namespace Bincode

/-- A 32-bit enumeration tag, least significant byte first. -/
def role : Codec ReplicaRole where
  put
    | .voter => [0, 0, 0, 0]
    | .learner => [1, 0, 0, 0]
  get
    | 0 :: 0 :: 0 :: 0 :: b => some (.voter, b)
    | 1 :: 0 :: 0 :: 0 :: b => some (.learner, b)
    | _ => none
  get_put := by
    intro r rest
    cases r with
    | voter => rfl
    | learner => rfl

def replica : Codec ReplicaPlacement :=
  (Codec.word.pair (Codec.word.pair role)).iso (fun r => (r.nodeId, r.storeId, r.role))
    (fun (n, s, r) => ⟨n, s, r⟩) fun _ => rfl

def lease : Codec LeaseInfo :=
  (Codec.word.pair Codec.word).iso (fun l => (l.holder, l.expiresAtMillis))
    (fun (h, e) => ⟨h, e⟩) fun _ => rfl

def range : Codec RangeDescriptor :=
  (Codec.word.pair (Codec.byte.list.pair (Codec.byte.list.pair (replica.list.pair
    (Codec.word.pair (Codec.word.pair (Codec.word.pair lease.option))))))).iso
    (fun d => (d.rangeId, d.startKey, d.endKey, d.replicas, d.raftGroupId, d.epoch, d.generation,
      d.lease))
    (fun (i, s, e, r, g, ep, gen, l) => ⟨i, s, e, r, g, ep, gen, l⟩) fun _ => rfl

def node : Codec NodeInfo :=
  (Codec.word.pair (Codec.string.pair (Codec.word.list.pair Codec.word))).iso
    (fun i => (i.nodeId, i.address, i.stores, i.lastHeartbeatMillis))
    (fun (n, a, s, h) => ⟨n, a, s, h⟩) fun _ => rfl

def logId : Codec LogId :=
  (Codec.word.pair (Codec.word.pair Codec.word)).iso
    (fun l => (l.leaderId.term, l.leaderId.nodeId, l.index)) (fun (t, n, i) => ⟨⟨t, n⟩, i⟩)
    fun _ => rfl

def membership : Codec Membership :=
  (Codec.word.list.list.pair (Codec.word.pair Codec.string).list).iso
    (fun m => (m.configs, m.nodes)) (fun (c, n) => ⟨c, n⟩) fun _ => rfl

def storedMembership : Codec StoredMembership :=
  (logId.option.pair membership).iso (fun m => (m.logId, m.membership)) (fun (l, m) => ⟨l, m⟩)
    fun _ => rfl

def pdMeta : Codec PersistedPdMeta :=
  (logId.option.pair storedMembership).iso (fun m => (m.lastApplied, m.lastMembership))
    (fun (l, m) => ⟨l, m⟩) fun _ => rfl

def payload : Codec SnapshotPayload :=
  (logId.option.pair (storedMembership.pair (Codec.word.pair (range.list.pair node.list)))).iso
    (fun p => (p.lastApplied, p.lastMembership, p.nextRangeId, p.ranges, p.nodes))
    (fun (l, m, n, r, i) => ⟨l, m, n, r, i⟩) fun _ => rfl

end Bincode

/-- The codec of the release build. -/
def bincode : PdCodec where
  range := Bincode.range.toRow
  node := Bincode.node.toRow
  pdMeta := Bincode.pdMeta.toRow
  payload := Bincode.payload.toRow

end AresaDb.Pd
