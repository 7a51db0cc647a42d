import AresaDb.Lib.ByteOrder
import AresaDb.Lib.Tiling

/-! # Placement-driver types, commands and errors

The records of `aresadb-pd/src/types.rs`, the replicated commands of `command.rs` and the
rejections of `error.rs`, with the texts that reach a client.  All counters and identifiers are
`u64` and stay machine words here; keys are byte strings.

A descriptor covers the half-open key span `[start_key, end_key)`, an empty `end_key` standing
for no upper bound.  `RangeDescriptor.span` reads it as a `Span` of the byte order, and
`contains_iff`/`hasNonEmptySpan_iff` say that the two predicates of the source are membership in
and properness of that span. -/

namespace AresaDb.Pd

open ByteOrder

/-- Identifier of a physical cluster node. -/
abbrev NodeId := UInt64
/-- Identifier of a store attached to a node. -/
abbrev StoreId := UInt64
/-- Identifier of a range. -/
abbrev RangeId := UInt64
/-- Identifier of a Raft group. -/
abbrev GroupId := UInt64

inductive ReplicaRole where
  | voter
  | learner
deriving DecidableEq, Repr

structure ReplicaPlacement where
  nodeId : NodeId
  storeId : StoreId
  role : ReplicaRole
deriving DecidableEq, Repr

namespace ReplicaPlacement

def voter (nodeId : NodeId) (storeId : StoreId) : ReplicaPlacement := ⟨nodeId, storeId, .voter⟩

end ReplicaPlacement

structure LeaseInfo where
  holder : NodeId
  expiresAtMillis : UInt64
deriving DecidableEq, Repr

structure RangeDescriptor where
  rangeId : RangeId
  startKey : Bytes
  endKey : Bytes
  replicas : List ReplicaPlacement
  raftGroupId : GroupId
  epoch : UInt64
  generation : UInt64
  lease : Option LeaseInfo
deriving DecidableEq, Repr

structure NodeInfo where
  nodeId : NodeId
  address : String
  stores : List StoreId
  lastHeartbeatMillis : UInt64
deriving DecidableEq, Repr

namespace RangeDescriptor

/-- A brand-new descriptor: generation 0, epoch 0, group id equal to the range id. -/
def new (rangeId : RangeId) (startKey endKey : Bytes) (replicas : List ReplicaPlacement) :
    RangeDescriptor :=
  { rangeId, startKey, endKey, replicas, raftGroupId := rangeId, epoch := 0, generation := 0,
    lease := none }

/-- `key` lies in `[start_key, end_key)`; an empty `end_key` is +infinity. -/
def contains (d : RangeDescriptor) (key : Bytes) : Bool :=
  decide (d.startKey ≤ key) && (d.endKey.isEmpty || decide (key < d.endKey))

/-- The span holds at least one key. -/
def hasNonEmptySpan (d : RangeDescriptor) : Bool :=
  if d.endKey.isEmpty then true else decide (d.startKey < d.endKey)

/-! ### Descriptors as spans -/

/-- The upper end named by an `end_key`. -/
def endBound (endKey : Bytes) : WithTop Bytes := if endKey.isEmpty then ⊤ else endKey

/-- The key span of a descriptor. -/
def span (d : RangeDescriptor) : Span Bytes := ⟨d.startKey, endBound d.endKey⟩

@[simp] theorem span_lo (d : RangeDescriptor) : d.span.lo = d.startKey := rfl

@[simp] theorem span_hi (d : RangeDescriptor) : d.span.hi = endBound d.endKey := rfl

theorem lt_endBound_iff {k e : Bytes} : (k : WithTop Bytes) < endBound e ↔ e = [] ∨ k < e := by
  unfold endBound
  cases e with
  | nil => simp
  | cons x e => simp

theorem endBound_of_ne_nil {e : Bytes} (h : e ≠ []) : endBound e = e := by
  cases e with
  | nil => exact absurd rfl h
  | cons x e => rfl

theorem contains_iff {d : RangeDescriptor} {key : Bytes} :
    d.contains key = true ↔ key ∈ d.span := by
  rw [Span.mem_iff, span_hi, lt_endBound_iff]
  simp [contains]

theorem hasNonEmptySpan_iff {d : RangeDescriptor} : d.hasNonEmptySpan = true ↔ d.span.Proper := by
  unfold Span.Proper
  rw [span_hi, lt_endBound_iff]
  cases h : d.endKey with
  | nil => simp [hasNonEmptySpan, h]
  | cons x e => simp [hasNonEmptySpan, h]

end RangeDescriptor

/-! ### Commands and responses -/

/-- A single mutation applied to the placement catalog. -/
inductive PdCommand where
  | registerNode (info : NodeInfo)
  | heartbeatNode (nodeId : NodeId) (lastSeenMillis : UInt64)
  | createRange (desc : RangeDescriptor)
  | splitRange (parentRangeId : RangeId) (splitKey : Bytes)
  | mergeRanges (left right : RangeId)
  | updateMembership (rangeId : RangeId) (newReplicas : List ReplicaPlacement) (newEpoch : UInt64)
  | updateLease (rangeId : RangeId) (lease : Option LeaseInfo)
deriving DecidableEq, Repr

/-- Response produced by applying a command. -/
inductive PdResponse where
  | ok
  | range (desc : RangeDescriptor)
  | error (message : String)
deriving DecidableEq, Repr

/-! ### Rejections -/

/-- Reason the catalog rejected a mutation. -/
inductive CatalogError where
  | rangeAlreadyExists (rangeId : RangeId)
  | rangeNotFound (rangeId : RangeId)
  | nodeNotRegistered (nodeId : NodeId)
  | groupIdInUse (groupId owner : RangeId)
  | overlappingRange (startHex endHex : String) (conflict : RangeId)
  | invalidSpan
  | splitKeyOutOfBounds (rangeId : RangeId) (keyHex : String)
  | epochRegression (rangeId : RangeId) (existing attempted : UInt64)
  | notAdjacent (left right : RangeId)
  | replicaSetMismatch (left right : RangeId)
  | unknownStore (storeId : StoreId)
deriving DecidableEq, Repr

namespace CatalogError

/-- Decimal rendering of a word, as `Display` prints it. -/
def dec (n : UInt64) : String := toString n.toNat

/-- The client-visible text of a rejection. -/
def display : CatalogError → String
  | rangeAlreadyExists id => "range " ++ dec id ++ " already exists"
  | rangeNotFound id => "range " ++ dec id ++ " not found"
  | nodeNotRegistered id => "node " ++ dec id ++ " has not been registered"
  | groupIdInUse g owner => "raft group " ++ dec g ++ " already owned by range " ++ dec owner
  | overlappingRange s e conflict =>
      "range span [" ++ s ++ ", " ++ e ++ ") overlaps existing range " ++ dec conflict
  | invalidSpan => "range span is empty or inverted: start_key >= end_key"
  | splitKeyOutOfBounds id key => "split key " ++ key ++ " must be strictly inside range " ++ dec id
  | epochRegression id existing attempted =>
      "epoch regression on range " ++ dec id ++ ": existing " ++ dec existing ++ ", attempted " ++
        dec attempted
  | notAdjacent l r =>
      "ranges " ++ dec l ++ " and " ++ dec r ++
        " are not adjacent — left.end_key != right.start_key"
  | replicaSetMismatch l r =>
      "ranges " ++ dec l ++ " and " ++ dec r ++
        " have different replica sets — rebalance before merge"
  | unknownStore id => "replica placement references unknown store " ++ dec id

end CatalogError

/-- Lowercase hexadecimal digit. -/
def hexDigit (n : ℕ) : Char := Nat.digitChar n

/-- Lowercase hex rendering of a byte slice, used for error reporting. -/
def toHex (bytes : Bytes) : String :=
  "0x" ++ String.ofList (bytes.flatMap fun b => [hexDigit (b.toNat / 16), hexDigit (b.toNat % 16)])

/-- Render an end key, mapping the empty vector to `+inf`. -/
def endHex (bytes : Bytes) : String := if bytes.isEmpty then "+inf" else toHex bytes

end AresaDb.Pd
