import AresaDb.Store.FullText

/-! # Tiered storage

The storage of nodes (`storage/tiered.rs`): index records and edges stay local, the payload of a
node is in the local payload table or in the cloud bucket, and a cache may hold a copy of either.
Every payload is kept as what its bytes are read back to.

The operations are those of one caller at a time; an operation that returns an error is `none`, and
changes nothing, a deletion aside (`dropCopies`).  Left out is the copy that a failing read leaves
in the cache, which may lose it at any moment, and what an eviction or a promotion has written when
it fails on the row that stands for an index record.  Bucket operations succeed, and the bucket
returns the object put last. -/

namespace AresaDb.Store

structure TieredConfig where
  localPayloadMaxBytes : ℕ
  /-- Smaller payloads stay local. -/
  minCloudPayloadBytes : ℕ
  /-- New payloads are put in the bucket as they are written. -/
  writeThrough : Bool

structure TieredStorage where
  local_ : LocalStorage
  cache : OrdMap NodeId Props
  /-- The objects of the bucket, if there is one. -/
  bucket : Option (OrdMap NodeId Props)
  config : TieredConfig

namespace TieredStorage

/-- A storage on a new database, with or without a bucket. -/
def new (config : TieredConfig) (hasBucket : Bool) : TieredStorage :=
  ⟨.create, ∅, if hasBucket then some ∅ else none, config⟩

variable (J : Serde) (U : Unicode) (s : TieredStorage)

/-! ### Cache and bucket -/

def cachePut (id : NodeId) (payload : Props) : TieredStorage :=
  { s with cache := s.cache.insert id payload }

def cacheRemove (id : NodeId) : TieredStorage := { s with cache := s.cache.erase id }

/-- The object of a node in the bucket. -/
def fetchCloudPayload (id : NodeId) : Option Props := s.bucket.bind fun objects => objects[id]?

def bucketPut (id : NodeId) (payload : Props) : TieredStorage :=
  { s with bucket := s.bucket.map fun objects => objects.insert id payload }

def bucketDelete (id : NodeId) : TieredStorage :=
  { s with bucket := s.bucket.map fun objects => objects.erase id }

/-- Put a new payload in the bucket, if the configuration says so. -/
def pushThrough (id : NodeId) (payload : Props) : TieredStorage :=
  if s.config.writeThrough then s.bucketPut id payload else s

/-! ### Nodes -/

def insertNode (node : Node) : TieredStorage :=
  let payload := J.props node.properties
  let index := NodeIndex.fromNode node .local (J.size node.properties)
  let stored := s.local_.insertNodeTiered node.id index payload
  let listed := stored.updatePropertyIndexes J node.id node.nodeType node.properties
  let local' := listed.updateFulltextIndex U node.id node.nodeType node.properties
  ({ s with local_ := local' }.pushThrough node.id payload).cachePut node.id payload

def insertNodesBatch (nodes : List Node) : TieredStorage :=
  let batch := nodes.map fun node =>
    (node.id, NodeIndex.fromNode node .local (J.size node.properties), J.props node.properties)
  nodes.foldl (fun s node => s.cachePut node.id (J.props node.properties))
    { s with local_ := s.local_.insertNodesTieredBatch batch }

/-- The properties of a node: from the cache, else from where the index record says, and then the
cache gets a copy.  They are parsed from the bytes of the payload. -/
def resolvePayload (id : NodeId) (index : NodeIndex) : Option (Props × TieredStorage) :=
  match s.cache[id]? with
  | some payload => if parses payload then some (payload, s) else none
  | none =>
      let payload := match index.payloadLocation with
        | .local => (s.local_.getPayload J id).join
        | .cloud => s.fetchCloudPayload id
      (payload.filter parses).map fun payload => (payload, s.cachePut id payload)

/-- The node, if there is one, and the storage after the read. -/
def getNode (id : NodeId) : Option (Option Node × TieredStorage) := do
  match ← s.local_.getNodeIndex J id with
  | none => return (none, s)
  | some index =>
      let (payload, s') ← s.resolvePayload J id index
      return (some (index.toNode id payload), s')

/-- Resolve the payloads of a list of index records. -/
def resolveAll :
    TieredStorage → List (NodeId × NodeIndex) → Option (List Node × TieredStorage)
  | s, [] => some ([], s)
  | s, (id, index) :: rest => do
      let (payload, s₁) ← s.resolvePayload J id index
      let (nodes, s₂) ← resolveAll s₁ rest
      return (index.toNode id payload :: nodes, s₂)

def getNodesByType (nodeType : String) (limit : Option ℕ) : Option (List Node × TieredStorage) :=
  (s.local_.getNodeIndexesByType J nodeType limit).bind (s.resolveAll J)

/-- The index record after an update. -/
def updatedIndex (now : Timestamp) (index : NodeIndex) (properties : Props) : NodeIndex :=
  { index with
    updatedAt := now
    payloadLocation := .local
    payloadSize := capU32 (J.size properties)
    propertyCount := capU16 properties.size }

/-- The updated node comes with the storage. -/
def updateNode (now : Timestamp) (id : NodeId) (newProperties : Value) :
    Option (Node × TieredStorage) := do
  let index ← (s.local_.getNodeIndex J id).join
  let (payload, s') ← s.resolvePayload J id index
  let properties := mergeProps payload newProperties
  let stored := J.props properties
  let index' := updatedIndex J now index properties
  let local' ← s'.local_.updateNodeTiered J id index' stored
  let written := { s' with local_ := local' }
  return (index'.toNode id properties, (written.cachePut id stored).pushThrough id stored)

/-- The first part of a deletion, which never fails. -/
def dropCopies (id : NodeId) : TieredStorage := (s.cacheRemove id).bucketDelete id

def deleteNode (id : NodeId) : Option TieredStorage :=
  ((s.dropCopies id).local_.deleteNodeTiered id).map fun local' =>
    { s.dropCopies id with local_ := local' }

/-! ### Tiering -/

/-- Record where the payload of a node is. -/
def setLocation (id : NodeId) (location : PayloadLocation) : Option TieredStorage :=
  (s.local_.getNodeIndex J id).map fun
    | some index =>
        { s with
          local_ := s.local_.updateNodeIndex id { index with payloadLocation := location } }
    | none => s

def evictToCloud (id : NodeId) : Option TieredStorage :=
  if s.bucket.isSome then do
    let payload ← (s.local_.getPayload J id).join
    let moved ← (s.bucketPut id payload).setLocation J id .cloud
    return { moved with local_ := moved.local_.deletePayload id }.cachePut id payload
  else none

def promoteToLocal (id : NodeId) : Option TieredStorage := do
  let payload ← s.fetchCloudPayload id
  { s with local_ := s.local_.putPayload id payload }.setLocation J id .local

/-- The nodes with local payloads of a size, those first whose update is longest ago. -/
def evictionCandidates (minSize : ℕ) : List (NodeId × ℕ) :=
  let candidates := s.local_.nodeIndexes.toList.filter fun e =>
    e.2.payloadLocation = .local ∧ minSize ≤ e.2.payloadSize
  (candidates.mergeSort fun a b => a.2.updatedAt ≤ b.2.updatedAt).map fun e =>
    (e.1, e.2.payloadSize)

/-- Evict candidates until the bytes are down to the target; an eviction that fails is skipped.
The number of nodes evicted comes with the storage. -/
def evictUntil (target : ℕ) : ℕ → TieredStorage → List (NodeId × ℕ) → ℕ × TieredStorage
  | _, s, [] => (0, s)
  | bytes, s, (id, size) :: rest =>
      if bytes ≤ target then (0, s)
      else
        match s.evictToCloud J id with
        | some s' =>
            let (evicted, s'') := evictUntil target (bytes - size) s' rest
            (evicted + 1, s'')
        | none => evictUntil target bytes s rest

/-- Evict down to four fifths of the limit when the database file has outgrown it. -/
def runEviction (fileBytes : ℕ) : ℕ × TieredStorage :=
  if s.bucket.isNone ∨ fileBytes ≤ s.config.localPayloadMaxBytes then (0, s)
  else
    -- The product is one of `u64`s.
    let target := s.config.localPayloadMaxBytes * 80 % 2 ^ 64 / 100
    evictUntil J target fileBytes s (s.evictionCandidates s.config.minCloudPayloadBytes)

/-! ### Indexes -/

def createIndex (nodeType field : String) : Option TieredStorage :=
  (s.local_.createPropertyIndex J nodeType field).map fun created =>
    { s with local_ := created.2 }

def dropIndex (nodeType field : String) : TieredStorage :=
  { s with local_ := s.local_.dropPropertyIndex nodeType field }

def createFulltextIndex (nodeType field : String) : Option TieredStorage :=
  (s.local_.createFulltextIndex U nodeType field).map fun created =>
    { s with local_ := created.2 }

/-- Read the nodes of a list of ids, skipping those that are gone; each keeps its tag. -/
def readNodes {τ : Type} : TieredStorage → List (NodeId × τ) →
    Option (List (Node × τ) × TieredStorage)
  | s, [] => some ([], s)
  | s, (id, tag) :: rest => do
      let (node, s₁) ← s.getNode J id
      let (nodes, s₂) ← readNodes s₁ rest
      return (node.toList.map (fun node => (node, tag)) ++ nodes, s₂)

/-- The nodes with a property value; the inner `none` when there is no index on the field. -/
def indexLookup (nodeType field : String) (value : Value) :
    Option (Option (List Node) × TieredStorage) :=
  match s.local_.indexLookup J nodeType field value with
  | none => some (none, s)
  | some ids =>
      (s.readNodes J (ids.map fun id => (id, ()))).map fun (nodes, s') =>
        (some (nodes.map Prod.fst), s')

/-- The best nodes for a query with their scores. -/
def fulltextSearch (A : Scoring) (H : HashOrder) (nodeType field query : String) (limit : ℕ) :
    Option (List (Node × Binary64) × TieredStorage) :=
  (s.local_.fulltextSearch U A H nodeType field query limit).bind fun results =>
    s.readNodes J results

end TieredStorage

end AresaDb.Store
