import AresaDb.Lib.OrdMap
import AresaDb.Lib.Run
import AresaDb.Pd.Types

/-! # The placement catalog

The pure-logic index of `aresadb-pd/src/catalog.rs`: four ordered maps and the range-id counter,
with one entry point for mutation, `Catalog.apply`.

A mutator returns its result *and* the catalog it leaves behind, also when it rejects, so that
"a rejected command changes nothing" is a theorem and not a convention.  A result is a value, a
rejection (`Fault.reject`) or a panic (`Fault.panic`): the source indexes `self.ranges[pred_id]`
and unwraps `get_mut(&left)`, and both abort when an index is out of step.

Counters are `u64` and addition wraps, as in the release profile of the workspace;
`Catalog.increments` lists the words a command increments, so that a run "without counter
overflow" can be stated. -/

namespace AresaDb.Pd

open ByteOrder

/-- How a mutation fails: with a rejection, or by aborting the thread. -/
inductive Fault where
  | reject (e : CatalogError)
  | panic
deriving DecidableEq

/-- The placement-driver catalog. -/
structure Catalog where
  /-- Primary storage: range id to descriptor. -/
  ranges : OrdMap RangeId RangeDescriptor
  /-- Secondary index: start key to range id. -/
  byStart : OrdMap Bytes RangeId
  /-- Secondary index: Raft group id to range id. -/
  byGroup : OrdMap GroupId RangeId
  /-- Node inventory. -/
  nodes : OrdMap NodeId NodeInfo
  /-- Next range id handed out by a split. -/
  nextRangeId : RangeId
deriving DecidableEq

/-- Sort key of a replica: node, store, role. -/
def ReplicaPlacement.sortKey (r : ReplicaPlacement) : UInt64 ×ₗ (UInt64 ×ₗ UInt64) :=
  toLex (r.nodeId, toLex (r.storeId, match r.role with | .voter => 0 | .learner => 1))

/-- Compare two replica lists as multisets. -/
def replicaSetsEqual (a b : List ReplicaPlacement) : Bool :=
  if a.length ≠ b.length then false
  else
    decide (a.insertionSort (fun x y => x.sortKey ≤ y.sortKey) =
      b.insertionSort (fun x y => x.sortKey ≤ y.sortKey))

namespace Catalog

/-- A fresh, empty catalog; ids are handed out from 1. -/
def new : Catalog := { ranges := ∅, byStart := ∅, byGroup := ∅, nodes := ∅, nextRangeId := 1 }

/-! ### Reads -/

def getRange (c : Catalog) (rangeId : RangeId) : Option RangeDescriptor := c.ranges[rangeId]?

def getNode (c : Catalog) (nodeId : NodeId) : Option NodeInfo := c.nodes[nodeId]?

/-- Every descriptor in start-key order; `none` is the panic on an index entry that names no
range. -/
def iterRangesByStart (c : Catalog) : Option (List RangeDescriptor) :=
  c.byStart.values.mapM fun id => c.ranges[id]?

/-- Every node in id order. -/
def iterNodes (c : Catalog) : List NodeInfo := c.nodes.values

/-- The range whose span contains `key`. -/
def findRangeForKey (c : Catalog) (key : Bytes) : Option RangeDescriptor := do
  let (_, rangeId) ← c.byStart.lastLE? key
  let candidate ← c.ranges[rangeId]?
  if candidate.contains key then some candidate else none

/-! ### Hydration -/

/-- One round of the range loop of `load`. -/
def loadRange (c : Catalog) (desc : RangeDescriptor) : Catalog :=
  { c with
    byStart := c.byStart.insert desc.startKey desc.rangeId
    byGroup := c.byGroup.insert desc.raftGroupId desc.rangeId
    nextRangeId := max c.nextRangeId (desc.rangeId + 1)
    ranges := c.ranges.insert desc.rangeId desc }

/-- One round of the node loop of `load`. -/
def loadNode (c : Catalog) (info : NodeInfo) : Catalog :=
  { c with nodes := c.nodes.insert info.nodeId info }

/-- Hydrate a catalog from rows, trusting them. -/
def load (ranges : List RangeDescriptor) (nodes : List NodeInfo) (nextRangeIdHint : RangeId) :
    Catalog :=
  let c := nodes.foldl loadNode (ranges.foldl loadRange new)
  { c with nextRangeId := max c.nextRangeId nextRangeIdHint }

/-! ### Mutators -/

/-- The row a registration stores: the new data with the last heartbeat already on record. -/
def registeredInfo (c : Catalog) (info : NodeInfo) : NodeInfo :=
  match c.nodes[info.nodeId]? with
  | some existing => { info with lastHeartbeatMillis := existing.lastHeartbeatMillis }
  | none => info

/-- Register or refresh a node, keeping its last heartbeat. -/
def registerNode (c : Catalog) (info : NodeInfo) : Catalog :=
  { c with nodes := c.nodes.insert info.nodeId (c.registeredInfo info) }

/-- Mark a node as alive; a heartbeat never moves backwards. -/
def heartbeatNode (c : Catalog) (nodeId : NodeId) (lastSeenMillis : UInt64) :
    Except Fault Unit × Catalog :=
  match c.nodes[nodeId]? with
  | none => (.error (.reject (.nodeNotRegistered nodeId)), c)
  | some entry =>
      let entry :=
        { entry with lastHeartbeatMillis := max lastSeenMillis entry.lastHeartbeatMillis }
      (.ok (), { c with nodes := c.nodes.insert nodeId entry })

/-- The successor half of `find_overlap`. -/
def successorOverlap (c : Catalog) (startKey endKey : Bytes) : Option RangeId :=
  match c.byStart.firstGT? startKey with
  | some (sucStart, sucId) =>
      if endKey.isEmpty || decide (sucStart < endKey) then some sucId else none
  | none => none

/-- The id of a range that overlaps `[startKey, endKey)`, looking at the neighbours of `startKey`
in the start-key index only. -/
def findOverlap (c : Catalog) (startKey endKey : Bytes) : Except Fault (Option RangeId) :=
  match c.byStart.lastLE? startKey with
  | some (_, predId) =>
      match c.ranges[predId]? with
      | none => .error .panic
      | some pred =>
          if pred.endKey.isEmpty || decide (startKey < pred.endKey) then .ok (some predId)
          else .ok (c.successorOverlap startKey endKey)
  | none => .ok (c.successorOverlap startKey endKey)

/-- Insert a brand-new range. -/
def createRange (c : Catalog) (desc : RangeDescriptor) : Except Fault RangeDescriptor × Catalog :=
  if !desc.hasNonEmptySpan then (.error (.reject .invalidSpan), c)
  else if c.ranges.contains desc.rangeId then
    (.error (.reject (.rangeAlreadyExists desc.rangeId)), c)
  else
    match c.byGroup[desc.raftGroupId]?.filter (fun owner => owner != desc.rangeId) with
    | some owner => (.error (.reject (.groupIdInUse desc.raftGroupId owner)), c)
    | none =>
        match c.findOverlap desc.startKey desc.endKey with
        | .error f => (.error f, c)
        | .ok (some conflict) =>
            (.error (.reject (.overlappingRange (toHex desc.startKey) (endHex desc.endKey)
              conflict)), c)
        | .ok none =>
            (.ok desc,
              { c with
                byStart := c.byStart.insert desc.startKey desc.rangeId
                byGroup := c.byGroup.insert desc.raftGroupId desc.rangeId
                nextRangeId := max c.nextRangeId (desc.rangeId + 1)
                ranges := c.ranges.insert desc.rangeId desc })

/-- The right-hand descriptor that a split of `parent` at `splitKey` allocates. -/
def splitRhs (c : Catalog) (parent : RangeDescriptor) (splitKey : Bytes) : RangeDescriptor :=
  { rangeId := c.nextRangeId
    startKey := splitKey
    endKey := parent.endKey
    replicas := parent.replicas
    raftGroupId := c.nextRangeId
    epoch := parent.epoch
    generation := parent.generation + 1
    lease := none }

/-- What a split leaves of the parent. -/
def splitLhs (parent : RangeDescriptor) (splitKey : Bytes) : RangeDescriptor :=
  { parent with endKey := splitKey, generation := parent.generation + 1, lease := none }

/-- Split `parentRangeId` at `splitKey`; the result is the new right-hand descriptor. -/
def splitRange (c : Catalog) (parentRangeId : RangeId) (splitKey : Bytes) :
    Except Fault RangeDescriptor × Catalog :=
  match c.ranges[parentRangeId]? with
  | none => (.error (.reject (.rangeNotFound parentRangeId)), c)
  | some parent =>
      let strictlyAboveStart := decide (parent.startKey < splitKey)
      let strictlyBelowEnd := parent.endKey.isEmpty || decide (splitKey < parent.endKey)
      if !(strictlyAboveStart && strictlyBelowEnd) then
        (.error (.reject (.splitKeyOutOfBounds parentRangeId (toHex splitKey))), c)
      else
        let rhs := c.splitRhs parent splitKey
        (.ok rhs,
          { c with
            nextRangeId := c.nextRangeId + 1
            ranges := (c.ranges.insert parentRangeId (splitLhs parent splitKey)).insert
              rhs.rangeId rhs
            byStart := c.byStart.insert rhs.startKey rhs.rangeId
            byGroup := c.byGroup.insert rhs.raftGroupId rhs.rangeId })

/-- Merge two adjacent ranges with equal replica sets; the right one is dissolved. -/
def mergeRanges (c : Catalog) (left right : RangeId) : Except Fault Unit × Catalog :=
  match c.ranges[left]? with
  | none => (.error (.reject (.rangeNotFound left)), c)
  | some leftDesc =>
      match c.ranges[right]? with
      | none => (.error (.reject (.rangeNotFound right)), c)
      | some rightDesc =>
          if leftDesc.endKey ≠ rightDesc.startKey ∨ leftDesc.endKey = [] then
            (.error (.reject (.notAdjacent left right)), c)
          else if !replicaSetsEqual leftDesc.replicas rightDesc.replicas then
            (.error (.reject (.replicaSetMismatch left right)), c)
          else
            let newGeneration := max leftDesc.generation rightDesc.generation + 1
            -- Drop the right range from every index, then look the left one up again: the
            -- `expect` there fails when both ids are the same.
            let dropped := { c with
              byStart := c.byStart.erase rightDesc.startKey
              byGroup := c.byGroup.erase rightDesc.raftGroupId
              ranges := c.ranges.erase right }
            match dropped.ranges[left]? with
            | none => (.error .panic, dropped)
            | some leftMut =>
                let merged := { leftMut with
                  endKey := rightDesc.endKey, generation := newGeneration, lease := none }
                (.ok (), { dropped with ranges := dropped.ranges.insert left merged })

/-- Replace the replica set of a range; the epoch must grow. -/
def updateMembership (c : Catalog) (rangeId : RangeId) (newReplicas : List ReplicaPlacement)
    (newEpoch : UInt64) : Except Fault Unit × Catalog :=
  match c.ranges[rangeId]? with
  | none => (.error (.reject (.rangeNotFound rangeId)), c)
  | some desc =>
      if newEpoch ≤ desc.epoch then
        (.error (.reject (.epochRegression rangeId desc.epoch newEpoch)), c)
      else
        let desc := { desc with replicas := newReplicas, epoch := newEpoch }
        (.ok (), { c with ranges := c.ranges.insert rangeId desc })

/-- Install, renew or clear the leader lease on a range. -/
def updateLease (c : Catalog) (rangeId : RangeId) (lease : Option LeaseInfo) :
    Except Fault Unit × Catalog :=
  match c.ranges[rangeId]? with
  | none => (.error (.reject (.rangeNotFound rangeId)), c)
  | some desc => (.ok (), { c with ranges := c.ranges.insert rangeId { desc with lease := lease } })

/-! ### Command dispatch -/

/-- Turn the value a mutator answers into the response of its command. -/
def respond {α : Type} (out : Except Fault α × Catalog) (f : α → PdResponse) :
    Except Fault PdResponse × Catalog := (out.1.map f, out.2)

/-- Apply a replicated command. -/
def apply (c : Catalog) : PdCommand → Except Fault PdResponse × Catalog
  | .registerNode info => (.ok .ok, c.registerNode info)
  | .heartbeatNode nodeId lastSeenMillis =>
      respond (c.heartbeatNode nodeId lastSeenMillis) fun _ => .ok
  | .createRange desc => respond (c.createRange desc) .range
  | .splitRange parentRangeId splitKey => respond (c.splitRange parentRangeId splitKey) .range
  | .mergeRanges left right => respond (c.mergeRanges left right) fun _ => .ok
  | .updateMembership rangeId newReplicas newEpoch =>
      respond (c.updateMembership rangeId newReplicas newEpoch) fun _ => .ok
  | .updateLease rangeId lease => respond (c.updateLease rangeId lease) fun _ => .ok

/-- The catalog after a command, accepted or not. -/
def step (c : Catalog) (cmd : PdCommand) : Catalog := (c.apply cmd).2

/-- The command is accepted. -/
def Accepts (c : Catalog) (cmd : PdCommand) : Prop := (c.apply cmd).1.isOk = true

instance (c : Catalog) (cmd : PdCommand) : Decidable (c.Accepts cmd) :=
  inferInstanceAs (Decidable (_ = true))

/-- The catalog after a list of commands from the empty one. -/
def after (cmds : List PdCommand) : Catalog := Run.run step new cmds

/-! ### Counter overflow -/

/-- The words that an accepted command increments by one. -/
def increments (c : Catalog) (cmd : PdCommand) : List UInt64 :=
  if c.Accepts cmd then
    match cmd with
    | .createRange desc => [desc.rangeId]
    | .splitRange parentRangeId _ =>
        c.nextRangeId :: (c.ranges[parentRangeId]?.toList.map (·.generation))
    | .mergeRanges left right =>
        match c.ranges[left]?, c.ranges[right]? with
        | some l, some r => [max l.generation r.generation]
        | _, _ => []
    | _ => []
  else []

/-- No `u64` addition performed by the command overflows. -/
def NoOverflow (c : Catalog) (cmd : PdCommand) : Prop := u64Max ∉ c.increments cmd

instance (c : Catalog) (cmd : PdCommand) : Decidable (c.NoOverflow cmd) :=
  inferInstanceAs (Decidable (u64Max ∉ c.increments cmd))

end Catalog

end AresaDb.Pd
