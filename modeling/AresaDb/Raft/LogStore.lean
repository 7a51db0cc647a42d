import AresaDb.Core.Storage
import AresaDb.Pd.RaftTypes

/-! # The Raft log store

`LogStoreGeneric` of `aresadb-raft/src/log_store.rs`: log entries, the vote, the committed id and
the purge pointer of one Raft group, kept as rows of a storage backend of its own.

| key              | row                          |
|------------------|------------------------------|
| `0x00 <index:8>` | a log entry                  |
| `0x01 0x01`      | the vote                     |
| `0x01 0x02`      | the committed id, an option  |
| `0x01 0x03`      | the purge pointer, an option |

The source is generic over the type configuration of a Raft group; here that is the entry type
and `LogConfig`, which has the log id of an entry and the serialisation of the four kinds of row.

Every call is one write batch, except a purge, which is two, and an append of nothing, which is
none. -/

namespace AresaDb.Raft

open ByteOrder AresaDb.Core
open AresaDb.Pd (LeaderId LogId)

/-- A vote: the leader voted for, and whether a quorum granted it. -/
structure Vote where
  leaderId : LeaderId
  committed : Bool
deriving DecidableEq, Repr

/-- What the store needs to know of a type configuration. -/
structure LogConfig (ε : Type) where
  logId : ε → LogId
  entry : RowCodec ε
  vote : RowCodec Vote
  pointer : RowCodec (Option LogId)

/-- The index of an entry. -/
def LogConfig.index {ε : Type} (C : LogConfig ε) (e : ε) : UInt64 := (C.logId e).index

/-- What can go wrong: a row that does not decode, or the assertion of `purge`. -/
inductive Fault where
  | bincode
  | purgeMovesBack
deriving DecidableEq, Repr

/-! ### Keys -/

def logPrefix : UInt8 := 0x00
def metaPrefix : UInt8 := 0x01
def metaVote : UInt8 := 0x01
def metaCommitted : UInt8 := 0x02
def metaPurged : UInt8 := 0x03

/-- The key of the entry at an index. -/
def logKey (index : UInt64) : Bytes := logPrefix :: beBytes index

/-- The key of a meta row. -/
def metaKey (tag : UInt8) : Bytes := [metaPrefix, tag]

/-- The key after every log key. -/
def logEnd : Bytes := [logPrefix + 1]

/-- One more, staying at the largest word. -/
def saturatingSucc (i : UInt64) : UInt64 := if i = u64Max then i else i + 1

/-- One side of a range of indices. -/
inductive Bound where
  | included (i : UInt64)
  | excluded (i : UInt64)
  | unbounded
deriving DecidableEq, Repr

/-- The key range that covers a range of indices. -/
def logRange (lo hi : Bound) : KeyRange where
  start :=
    match lo with
    | .included i => logKey i
    | .excluded i => logKey (saturatingSucc i)
    | .unbounded => [logPrefix]
  stop :=
    match hi with
    | .included i => if i = u64Max then logEnd else logKey (i + 1)
    | .excluded i => logKey i
    | .unbounded => logEnd

/-! ### The store -/

structure LogStore where
  backend : Backend
deriving DecidableEq

/-- Where the log ends and how far it has been purged. -/
structure LogState where
  lastPurgedLogId : Option LogId
  lastLogId : Option LogId
deriving DecidableEq, Repr

namespace LogStore

variable {ε : Type} (C : LogConfig ε) (s : LogStore)

/-- A store over an empty backend. -/
def new : LogStore := ⟨.new⟩

/-- The store as found after a crash that let the first `m` batches through. -/
def crash (m : ℕ) : LogStore := ⟨s.backend.crash m⟩

/-- A row read back. -/
def decodeRow {α : Type} (c : RowCodec α) (b : Bytes) : Except Fault α :=
  match c.decode b with
  | none => .error .bincode
  | some a => .ok a

def readVote : Except Fault (Option Vote) :=
  match s.backend.get (metaKey metaVote) with
  | none => .ok none
  | some b => (decodeRow C.vote b).map some

def readMetaLogId (tag : UInt8) : Except Fault (Option LogId) :=
  match s.backend.get (metaKey tag) with
  | none => .ok none
  | some b => decodeRow C.pointer b

def readCommitted : Except Fault (Option LogId) := readMetaLogId C s metaCommitted

/-- The log id of the last entry of a scan over the whole log. -/
def lastLogIdOnDisk : Except Fault (Option LogId) :=
  (s.backend.scan (logRange .unbounded .unbounded)).foldlM
    (fun _ kv => (decodeRow C.entry kv.2).map fun e => some (C.logId e)) none

def tryGetLogEntries (lo hi : Bound) : Except Fault (List ε) :=
  (s.backend.scan (logRange lo hi)).mapM fun kv => decodeRow C.entry kv.2

def getLogState : Except Fault LogState := do
  let lastPurged ← readMetaLogId C s metaPurged
  let lastEntry ← lastLogIdOnDisk C s
  return ⟨lastPurged, lastEntry.or lastPurged⟩

def saveVote (vote : Vote) : LogStore :=
  ⟨s.backend.writeBatch (WriteBatch.new.put (metaKey metaVote) (C.vote.encode vote))⟩

def saveCommitted (committed : Option LogId) : LogStore :=
  ⟨s.backend.writeBatch (WriteBatch.new.put (metaKey metaCommitted) (C.pointer.encode committed))⟩

def append (entries : List ε) : LogStore :=
  let batch := WriteBatch.new.putAll (fun e => logKey (C.index e)) C.entry.encode entries
  if batch.ops.isEmpty then s else ⟨s.backend.writeBatch batch⟩

/-- Delete every entry at or above the index. -/
def truncate (logId : LogId) : LogStore :=
  ⟨s.backend.writeBatch (WriteBatch.new.deleteRange (logKey logId.index) logEnd)⟩

/-- Move the purge pointer, then delete every entry at or below it. -/
def purge (logId : LogId) : Except Fault LogStore := do
  let prev ← readMetaLogId C s metaPurged
  if prev.any fun p => decide (logId.index < p.index) then
    throw .purgeMovesBack
  let pointed := s.backend.writeBatch
    (WriteBatch.new.put (metaKey metaPurged) (C.pointer.encode (some logId)))
  let cleared := pointed.writeBatch
    (WriteBatch.new.deleteRange [logPrefix] (logKey (saturatingSucc logId.index)))
  return ⟨cleared⟩

end LogStore

/-! ### Runs -/

/-- A mutating call. -/
inductive LogCall (ε : Type) where
  | append (entries : List ε)
  | truncate (logId : LogId)
  | purge (logId : LogId)
  | saveVote (vote : Vote)
  | saveCommitted (committed : Option LogId)
deriving DecidableEq, Repr

/-- The store after a call. -/
def LogStore.call {ε : Type} (C : LogConfig ε) (s : LogStore) : LogCall ε → Except Fault LogStore
  | .append entries => .ok (s.append C entries)
  | .truncate logId => .ok (s.truncate logId)
  | .purge logId => s.purge C logId
  | .saveVote vote => .ok (s.saveVote C vote)
  | .saveCommitted committed => .ok (s.saveCommitted C committed)

/-- The store after a list of calls. -/
def LogStore.calls {ε : Type} (C : LogConfig ε) (s : LogStore) (cs : List (LogCall ε)) :
    Except Fault LogStore := cs.foldlM (LogStore.call C) s

end AresaDb.Raft
