import AresaDb.Pd.CatalogRuns

/-! # The admin calls of the placement driver

`aresadb-pd/src/admin`: the conversions to and from the wire (`convert.rs`), the service of one
member (`server.rs`) and the typed client (`client.rs`).  A mutation hands its command to the Raft
library and makes a reply of what that answers; a read is answered from what the member has applied.

`NodeInfo` and `LeaseInfo` have the same fields on the wire. -/

namespace AresaDb.Pd.Admin

open ByteOrder

/-! ### The wire -/

inductive Code where
  | invalidArgument
  | failedPrecondition
  | unavailable
  | internal
  /-- The handler panicked and the call broke off. -/
  | unknown
deriving DecidableEq

structure Status where
  code : Code
  message : String
  /-- The `pd-leader-id` of the metadata. -/
  leaderHint : Option NodeId
deriving DecidableEq

def Status.invalidArgument (message : String) : Status := ⟨.invalidArgument, message, none⟩

def Status.failedPrecondition (message : String) : Status := ⟨.failedPrecondition, message, none⟩

def Status.internal (message : String) : Status := ⟨.internal, message, none⟩

structure ReplicaPlacementPb where
  nodeId : NodeId
  storeId : StoreId
  role : Int32

structure RangeDescriptorPb where
  rangeId : RangeId
  startKey : Bytes
  endKey : Bytes
  replicas : List ReplicaPlacementPb
  raftGroupId : GroupId
  epoch : UInt64
  generation : UInt64
  lease : Option LeaseInfo

/-- The number of a role. -/
def roleToPb : ReplicaRole → Int32
  | .voter => 1
  | .learner => 2

def replicaRoleFromI32 (value : Int32) : Except Status ReplicaRole :=
  if value = 1 then .ok .voter
  else if value = 2 then .ok .learner
  else if value = 0 then .error (.invalidArgument "replica role must be set to voter or learner")
  else .error (.invalidArgument s!"unknown replica role value {value}")

def replicaToPb (r : ReplicaPlacement) : ReplicaPlacementPb :=
  ⟨r.nodeId, r.storeId, roleToPb r.role⟩

def replicaFromPb (p : ReplicaPlacementPb) : Except Status ReplicaPlacement :=
  (replicaRoleFromI32 p.role).map fun role => ⟨p.nodeId, p.storeId, role⟩

def rangeToPb (r : RangeDescriptor) : RangeDescriptorPb where
  rangeId := r.rangeId
  startKey := r.startKey
  endKey := r.endKey
  replicas := r.replicas.map replicaToPb
  raftGroupId := r.raftGroupId
  epoch := r.epoch
  generation := r.generation
  lease := r.lease

def rangeFromPb (p : RangeDescriptorPb) : Except Status RangeDescriptor :=
  (p.replicas.mapM replicaFromPb).map fun replicas =>
    { rangeId := p.rangeId
      startKey := p.startKey
      endKey := p.endKey
      replicas := replicas
      raftGroupId := p.raftGroupId
      epoch := p.epoch
      generation := p.generation
      lease := p.lease }

theorem replicaFromPb_toPb (r : ReplicaPlacement) : replicaFromPb (replicaToPb r) = .ok r := by
  obtain ⟨nodeId, storeId, role⟩ := r
  cases role <;> rfl

theorem mapM_replicaFromPb (l : List ReplicaPlacement) :
    (l.map replicaToPb).mapM replicaFromPb = .ok l := by
  induction l with
  | nil => rfl
  | cons r l ih =>
      rw [List.map_cons, List.mapM_cons, replicaFromPb_toPb, ih]
      rfl

/-- A descriptor survives the wire. -/
@[simp] theorem rangeFromPb_toPb (r : RangeDescriptor) : rangeFromPb (rangeToPb r) = .ok r := by
  unfold rangeFromPb rangeToPb
  rw [mapM_replicaFromPb]
  rfl

@[simp] theorem mapM_rangeFromPb (l : List RangeDescriptor) :
    (l.map rangeToPb).mapM rangeFromPb = .ok l := by
  induction l with
  | nil => rfl
  | cons r l ih =>
      rw [List.map_cons, List.mapM_cons, rangeFromPb_toPb, ih]
      rfl

/-! ### The service -/

/-- How a write fails. -/
inductive WriteError where
  | forwardToLeader (leaderId : Option NodeId)
  | changeMembership (message : String)
  | fatal (message : String)

/-- What a handler has of its member: `Raft::client_write`, and the catalog that the state machine
has come to. -/
structure Member where
  clientWrite : PdCommand → Except WriteError PdResponse
  catalog : Catalog

section

variable (m : Member)

def replicate (cmd : PdCommand) : Except Status PdResponse :=
  match m.clientWrite cmd with
  | .ok resp => .ok resp
  | .error (.forwardToLeader (some id)) =>
      .error ⟨.unavailable, s!"not leader; current leader is node {id}", some id⟩
  | .error (.forwardToLeader none) => .error ⟨.unavailable, "no leader currently elected", none⟩
  | .error (.changeMembership e) => .error (.failedPrecondition s!"change_membership: {e}")
  | .error (.fatal f) => .error (.internal s!"raft fatal: {f}")

def unwrapResponse : PdResponse → Except Status PdResponse
  | .error msg => .error (.failedPrecondition msg)
  | resp => .ok resp

/-- Replicate a command and read its response. -/
def write {α : Type} (cmd : PdCommand) (read : PdResponse → Except Status α) : Except Status α :=
  replicate m cmd >>= unwrapResponse >>= read

/-- The descriptor that a command answers with; the other response is `Ok`. -/
def rangeResponse (rpc : String) : PdResponse → Except Status (Option RangeDescriptorPb)
  | .range stored => .ok (some (rangeToPb stored))
  | _ => .error (.internal s!"{rpc} returned unexpected response: Ok")

namespace Service

def registerNode (node : Option NodeInfo) : Except Status Unit :=
  match node with
  | none => .error (.invalidArgument "register_node: node is required")
  | some node =>
      if node.address.isEmpty then
        .error (.invalidArgument "register_node: address must be non-empty")
      else write m (.registerNode node) fun _ => .ok ()

def heartbeatNode (nodeId : NodeId) (lastSeenMillis : UInt64) : Except Status Unit :=
  if nodeId = 0 then .error (.invalidArgument "heartbeat_node: node_id must be non-zero")
  else write m (.heartbeatNode nodeId lastSeenMillis) fun _ => .ok ()

def createRange (range : Option RangeDescriptorPb) :
    Except Status (Option RangeDescriptorPb) :=
  match range with
  | none => .error (.invalidArgument "create_range: range is required")
  | some pbRange =>
      match rangeFromPb pbRange with
      | .error status => .error status
      | .ok desc => write m (.createRange desc) (rangeResponse "create_range")

def splitRange (parentRangeId : RangeId) (splitKey : Bytes) :
    Except Status (Option RangeDescriptorPb) :=
  if parentRangeId = 0 then
    .error (.invalidArgument "split_range: parent_range_id must be non-zero")
  else if splitKey.isEmpty then
    .error (.invalidArgument "split_range: split_key must be non-empty")
  else write m (.splitRange parentRangeId splitKey) (rangeResponse "split_range")

def mergeRanges (leftRangeId rightRangeId : RangeId) : Except Status Unit :=
  if leftRangeId = 0 ∨ rightRangeId = 0 then
    .error (.invalidArgument "merge_ranges: left and right range ids must be non-zero")
  else write m (.mergeRanges leftRangeId rightRangeId) fun _ => .ok ()

def updateMembership (rangeId : RangeId) (newReplicas : List ReplicaPlacementPb)
    (newEpoch : UInt64) : Except Status Unit :=
  if rangeId = 0 then .error (.invalidArgument "update_membership: range_id must be non-zero")
  else if newReplicas.isEmpty then
    .error (.invalidArgument "update_membership: new_replicas must be non-empty")
  else
    match newReplicas.mapM replicaFromPb with
    | .error status => .error status
    | .ok replicas => write m (.updateMembership rangeId replicas newEpoch) fun _ => .ok ()

def updateLease (rangeId : RangeId) (lease : Option LeaseInfo) (clear : Bool) :
    Except Status Unit :=
  if rangeId = 0 then .error (.invalidArgument "update_lease: range_id must be non-zero")
  else if clear && lease.isSome then
    .error (.invalidArgument "update_lease: cannot set both lease and clear")
  else if !clear && lease.isNone then
    .error (.invalidArgument "update_lease: must either set lease or set clear=true")
  else write m (.updateLease rangeId lease) fun _ => .ok ()

/-- Whether there is one, and the range. -/
def getRange (rangeId : RangeId) : Except Status (Bool × Option RangeDescriptorPb) :=
  if rangeId = 0 then .error (.invalidArgument "get_range: range_id must be non-zero")
  else
    let found := m.catalog.getRange rangeId
    .ok (found.isSome, found.map rangeToPb)

def getRangeByKey (key : Bytes) : Except Status (Bool × Option RangeDescriptorPb) :=
  let found := m.catalog.findRangeForKey key
  .ok (found.isSome, found.map rangeToPb)

/-- Where the iteration panics, the text is left to the transport. -/
def listRanges : Except Status (List RangeDescriptorPb) :=
  match m.catalog.iterRangesByStart with
  | some ranges => .ok (ranges.map rangeToPb)
  | none => .error ⟨.unknown, "", none⟩

def getNode (nodeId : NodeId) : Except Status (Bool × Option NodeInfo) :=
  if nodeId = 0 then .error (.invalidArgument "get_node: node_id must be non-zero")
  else
    let found := m.catalog.getNode nodeId
    .ok (found.isSome, found)

def listNodes : Except Status (List NodeInfo) := .ok m.catalog.iterNodes

end Service

end

/-! ### The client -/

inductive ClientError where
  | notLeader (hint : Option NodeId)
  | catalogRejected (message : String)
  | invalidArgument (message : String)
  | rpc (status : Status)
  | malformedResponse (field : String)
deriving DecidableEq

def mapStatus (status : Status) : ClientError :=
  match status.code with
  | .unavailable => .notLeader status.leaderHint
  | .failedPrecondition => .catalogRejected status.message
  | .invalidArgument => .invalidArgument status.message
  | _ => .rpc status

/-- The descriptor of an answer that has to bring one. -/
def required (field : String) : Option RangeDescriptorPb → Except ClientError RangeDescriptor
  | none => .error (.malformedResponse field)
  | some pb => (rangeFromPb pb).mapError mapStatus

/-- The descriptor of an answer that says whether it brings one. -/
def optional (out : Bool × Option RangeDescriptorPb) :
    Except ClientError (Option RangeDescriptor) :=
  if !out.1 then .ok none else (required "range" out.2).map some

/-- The rest of a client call, on the answer to its request. -/
def receive {α β : Type} (out : Except Status α) (read : α → Except ClientError β) :
    Except ClientError β := out.mapError mapStatus >>= read

namespace Client

variable (m : Member)

def registerNode (node : NodeInfo) : Except ClientError Unit :=
  receive (Service.registerNode m (some node)) .ok

def heartbeatNode (nodeId : NodeId) (lastSeenMillis : UInt64) : Except ClientError Unit :=
  receive (Service.heartbeatNode m nodeId lastSeenMillis) .ok

def createRange (range : RangeDescriptor) : Except ClientError RangeDescriptor :=
  receive (Service.createRange m (some (rangeToPb range))) (required "range")

def splitRange (parentRangeId : RangeId) (splitKey : Bytes) :
    Except ClientError RangeDescriptor :=
  receive (Service.splitRange m parentRangeId splitKey) (required "new_range")

def mergeRanges (left right : RangeId) : Except ClientError Unit :=
  receive (Service.mergeRanges m left right) .ok

def updateMembership (rangeId : RangeId) (newReplicas : List ReplicaPlacement) (newEpoch : UInt64) :
    Except ClientError Unit :=
  receive (Service.updateMembership m rangeId (newReplicas.map replicaToPb) newEpoch) .ok

def installLease (rangeId : RangeId) (lease : LeaseInfo) : Except ClientError Unit :=
  receive (Service.updateLease m rangeId (some lease) false) .ok

def clearLease (rangeId : RangeId) : Except ClientError Unit :=
  receive (Service.updateLease m rangeId none true) .ok

def getRange (rangeId : RangeId) : Except ClientError (Option RangeDescriptor) :=
  receive (Service.getRange m rangeId) optional

def getRangeByKey (key : Bytes) : Except ClientError (Option RangeDescriptor) :=
  receive (Service.getRangeByKey m key) optional

def listRanges : Except ClientError (List RangeDescriptor) :=
  receive (Service.listRanges m) fun l => (l.mapM rangeFromPb).mapError mapStatus

/-- The node of an answer that says whether it brings one. -/
def optionalNode (out : Bool × Option NodeInfo) : Except ClientError (Option NodeInfo) :=
  if !out.1 then .ok none
  else
    match out.2 with
    | none => .error (.malformedResponse "node")
    | some node => .ok (some node)

def getNode (nodeId : NodeId) : Except ClientError (Option NodeInfo) :=
  receive (Service.getNode m nodeId) optionalNode

def listNodes : Except ClientError (List NodeInfo) :=
  receive (Service.listNodes m) .ok

end Client

end AresaDb.Pd.Admin
