import AresaDb.Pd.Catalog
import AresaDb.Pd.Persist
import AresaDb.Pd.RaftTypes

/-! # The persistent placement driver

`PdStateMachine` (`state_machine.rs`) is a catalog next to the backend that holds its rows: an
accepted command mutates the catalog and commits the touched rows and the Raft meta row in one
batch; opening scans the rows and hydrates a catalog from them.  `PdRaftStateMachine`
(`raft/state_machine.rs`) applies log entries to it and keeps the meta of the last applied entry
in a cache.

The id counter has no row.  Opening derives it from the live ranges, whereas a snapshot carries
it.  The backend of this model never fails, so the `Backend` error does not occur; a panic is a
result of its own. -/

namespace AresaDb.Pd

open ByteOrder AresaDb.Core

/-- How an operation fails: a catalog rejection, a row that does not decode, or a panic. -/
inductive PdFault where
  | catalog (e : CatalogError)
  | encode
  | panic
deriving DecidableEq

/-- The catalog and the backend that holds its rows. -/
structure PdStateMachine where
  data : Backend
  catalog : Catalog
deriving DecidableEq

section

variable (K : PdCodec)

def putRange (batch : WriteBatch) (desc : RangeDescriptor) : WriteBatch :=
  batch.put (rangeKey desc.rangeId) (K.range.encode desc)

def putNode (batch : WriteBatch) (info : NodeInfo) : WriteBatch :=
  batch.put (nodeKey info.nodeId) (K.node.encode info)

/-- The rows an accepted command touches, read from the catalog after it; `none` is a failed
`expect`. -/
def buildWriteBatch (cmd : PdCommand) (resp : PdResponse) (catalog : Catalog) : Option WriteBatch :=
  match cmd with
  | .registerNode info => (catalog.getNode info.nodeId).map (putNode K .new)
  | .heartbeatNode nodeId _ => (catalog.getNode nodeId).map (putNode K .new)
  | .createRange desc => some (putRange K .new desc)
  | .splitRange parentRangeId _ =>
      match resp with
      | .range rhs =>
          (catalog.getRange parentRangeId).map fun parent => putRange K (putRange K .new parent) rhs
      | _ => none
  | .mergeRanges left right =>
      (catalog.getRange left).map fun mergedLeft =>
        (putRange K .new mergedLeft).delete (rangeKey right)
  | .updateMembership rangeId _ _ => (catalog.getRange rangeId).map (putRange K .new)
  | .updateLease rangeId _ => (catalog.getRange rangeId).map (putRange K .new)

/-- The rows of one prefix, decoded in key order; a key without a well-formed id is skipped. -/
def scanRows {α : Type} (codec : RowCodec α) (pre : Bytes) (data : Backend) :
    Except PdFault (List α) :=
  match prefixUpperBound pre with
  | none => .error .panic
  | some up =>
      let kvs := (data.scan ⟨pre, up⟩).filter fun kv => (idFromKey pre kv.1).isSome
      match kvs.mapM fun kv => codec.decode kv.2 with
      | some xs => .ok xs
      | none => .error .encode

def scanRanges (data : Backend) : Except PdFault (List RangeDescriptor) :=
  scanRows K.range rangePrefix data

def scanNodes (data : Backend) : Except PdFault (List NodeInfo) := scanRows K.node nodePrefix data

/-- The id counter that opening derives from the range rows. -/
def nextHint (ranges : List RangeDescriptor) : RangeId :=
  match (ranges.map (·.rangeId)).max? with
  | some m => m + 1
  | none => 1

def rehydrate (data : Backend) : Except PdFault Catalog := do
  let ranges ← scanRanges K data
  let nodes ← scanNodes K data
  return .load ranges nodes (nextHint ranges)

namespace PdStateMachine

/-- Open a state machine, rehydrating the catalog from the rows. -/
def open_ (data : Backend) : Except PdFault PdStateMachine := do
  let catalog ← rehydrate K data
  return { data, catalog }

def applyInner (sm : PdStateMachine) (cmd : PdCommand) (pdMeta : Option Bytes) :
    Except PdFault PdResponse × PdStateMachine :=
  match sm.catalog.apply cmd with
  | (.error (.reject e), catalog) => (.error (.catalog e), { sm with catalog })
  | (.error .panic, catalog) => (.error .panic, { sm with catalog })
  | (.ok resp, catalog) =>
      match buildWriteBatch K cmd resp catalog with
      | none => (.error .panic, { sm with catalog })
      | some batch =>
          let batch := match pdMeta with
            | some bytes => batch.put pdRaftMetaKey bytes
            | none => batch
          (.ok resp, { data := sm.data.writeBatch batch, catalog })

/-- Apply a command and persist the meta row in the same batch. -/
def applyWithMeta (sm : PdStateMachine) (cmd : PdCommand) (pdMeta : Bytes) :
    Except PdFault PdResponse × PdStateMachine := sm.applyInner K cmd (some pdMeta)

/-- Persist the meta row alone. -/
def applyMetaOnly (sm : PdStateMachine) (pdMeta : Bytes) : PdStateMachine :=
  { sm with data := sm.data.writeBatch (WriteBatch.new.put pdRaftMetaKey pdMeta) }

def readRaftMeta (sm : PdStateMachine) : Option Bytes := sm.data.get pdRaftMetaKey

/-- The batch that replaces every catalog row and the meta row; `none` is a failed assertion. -/
def snapshotBatch (ranges : List RangeDescriptor) (nodes : List NodeInfo) (pdMeta : Bytes) :
    Option WriteBatch := do
  let rangeEnd ← prefixUpperBound rangePrefix
  let nodeEnd ← prefixUpperBound nodePrefix
  let batch := (WriteBatch.new.deleteRange rangePrefix rangeEnd).deleteRange nodePrefix nodeEnd
  let batch := ranges.foldl (putRange K) batch
  let batch := nodes.foldl (putNode K) batch
  return batch.put pdRaftMetaKey pdMeta

/-- Replace the catalog with a snapshot's contents. -/
def installCatalogSnapshot (sm : PdStateMachine) (ranges : List RangeDescriptor)
    (nodes : List NodeInfo) (nextRangeId : RangeId) (pdMeta : Bytes) :
    Except PdFault PdStateMachine :=
  match snapshotBatch K ranges nodes pdMeta with
  | none => .error .panic
  | some batch =>
      .ok { data := sm.data.writeBatch batch, catalog := .load ranges nodes nextRangeId }

end PdStateMachine

/-! ### The Raft adapter -/

/-- The state machine and the cached meta of the last applied entry. -/
structure PdRaftStateMachine where
  inner : PdStateMachine
  pdMeta : PersistedPdMeta
deriving DecidableEq

namespace PdRaftStateMachine

/-- Open the adapter on a backend, with the meta of its meta row. -/
def open_ (data : Backend) : Except PdFault PdRaftStateMachine := do
  let inner ← PdStateMachine.open_ K data
  match inner.readRaftMeta with
  | none => return { inner, pdMeta := .default }
  | some bytes =>
      match K.pdMeta.decode bytes with
      | none => .error .encode
      | some pdMeta => return { inner, pdMeta }

/-- The meta that lands with an entry. -/
def entryMeta (pdMeta : PersistedPdMeta) (e : Entry) : PersistedPdMeta :=
  { lastApplied := some e.logId
    lastMembership :=
      match e.payload with
      | .membership mem => ⟨some e.logId, mem⟩
      | _ => pdMeta.lastMembership }

/-- The durable part of one round of `apply`: the inner state machine after the entry and the
response. -/
def applyInnerEntry (sm : PdRaftStateMachine) (e : Entry) :
    Except PdFault PdResponse × PdStateMachine :=
  let encoded := K.pdMeta.encode (entryMeta sm.pdMeta e)
  match e.payload with
  | .blank => (.ok .ok, sm.inner.applyMetaOnly encoded)
  | .membership _ => (.ok .ok, sm.inner.applyMetaOnly encoded)
  | .normal cmd =>
      match sm.inner.applyWithMeta K cmd encoded with
      | (.ok resp, inner) => (.ok resp, inner)
      -- A rejected command still moves the log position, in a batch of its own.
      | (.error (.catalog ce), inner) => (.ok (.error ce.display), inner.applyMetaOnly encoded)
      | (.error f, inner) => (.error f, inner)

/-- One round of `apply`: the durable write, then the cached meta. -/
def applyEntry (sm : PdRaftStateMachine) (e : Entry) :
    Except PdFault PdResponse × PdRaftStateMachine :=
  match applyInnerEntry K sm e with
  | (.ok resp, inner) => (.ok resp, { inner, pdMeta := entryMeta sm.pdMeta e })
  | (.error f, inner) => (.error f, { sm with inner })

/-- Apply entries in order, stopping at the first failure. -/
def apply (sm : PdRaftStateMachine) : List Entry →
    Except PdFault (List PdResponse) × PdRaftStateMachine
  | [] => (.ok [], sm)
  | e :: es =>
      match applyEntry K sm e with
      | (.error f, sm) => (.error f, sm)
      | (.ok resp, sm) =>
          let (resps, sm) := apply sm es
          (resps.map (resp :: ·), sm)

/-- The payload of a snapshot, from the cached meta and the catalog; `none` is the panic of the
start-key iterator. -/
def snapshotPayload (pdMeta : PersistedPdMeta) (catalog : Catalog) : Option SnapshotPayload := do
  let ranges ← catalog.iterRangesByStart
  return {
    lastApplied := pdMeta.lastApplied
    lastMembership := pdMeta.lastMembership
    nextRangeId := catalog.nextRangeId
    ranges
    nodes := catalog.iterNodes }

/-- The encoded snapshot, built with nothing else going on. -/
def buildSnapshot (sm : PdRaftStateMachine) : Except PdFault Bytes :=
  match snapshotPayload sm.pdMeta sm.inner.catalog with
  | none => .error .panic
  | some payload => .ok (K.payload.encode payload)

/-- Install an encoded snapshot. -/
def installSnapshot (sm : PdRaftStateMachine) (data : Bytes) : Except PdFault PdRaftStateMachine :=
  match K.payload.decode data with
  | none => .error .encode
  | some payload => do
      let persisted : PersistedPdMeta := ⟨payload.lastApplied, payload.lastMembership⟩
      let inner ← sm.inner.installCatalogSnapshot K payload.ranges payload.nodes
        payload.nextRangeId (K.pdMeta.encode persisted)
      return { inner, pdMeta := persisted }

/-- The log index the replica applies next. -/
def nextIndex (sm : PdRaftStateMachine) : ℕ :=
  match sm.pdMeta.lastApplied with
  | none => 0
  | some id => id.index.toNat + 1

end PdRaftStateMachine

end

end AresaDb.Pd
