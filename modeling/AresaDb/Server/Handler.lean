import AresaDb.Server.Wire
import AresaDb.Store.Json

/-! # The request handler

`server/handler.rs` over one database or over shards.  What the storage does is a parameter; of it
the handler knows the results and the texts of the errors, and a call that panics takes the handling
of the request with it.  The transactions are a set of ids: no request looks at them but those that
begin and end one. -/

namespace AresaDb.Server

open ByteOrder AresaDb.Store

/-! ### The storage -/

/-- What becomes of a call of the storage. -/
inductive Reply (α : Type) where
  | ok (a : α)
  | error (text : String)
  | panic

/-- What becomes of a call, and the storage after it. -/
abbrev Outcome (σ α : Type) := Reply α × σ

/-- The response of a handler, unless it panics, and the storage after it. -/
abbrev Handled (σ : Type) := Option Response × σ

/-- What the handler calls of `Database` and of `QueryEngine`. -/
structure DatabaseOps (σ : Type) where
  insertNode : σ → String → Json → Outcome σ Node
  getNode : σ → String → Outcome σ (Option Node)
  updateNode : σ → String → Json → Outcome σ Node
  deleteNode : σ → String → Outcome σ Unit
  getAllByType : σ → String → Option UInt64 → Outcome σ (List Node)
  createEdge : σ → String → String → String → Option Json → Outcome σ Edge
  getEdgesFrom : σ → String → Option String → Outcome σ (List Edge)
  getEdgesTo : σ → String → Option String → Outcome σ (List Edge)
  deleteEdge : σ → String → Outcome σ Unit
  executeSql : σ → String → Option UInt64 →
    Outcome σ (List String × List (List Value) × UInt64 × UInt64)
  traverse : σ → String → UInt32 → Option (List String) →
    Outcome σ (List Node × List Edge × UInt32)
  /-- The name, and the counts of nodes, edges and bytes. -/
  status : σ → Outcome σ (String × UInt64 × UInt64 × UInt64)

/-- What the handler calls of `ShardManager`; new nodes and edges draw an id and the time. -/
structure ShardOps (σ : Type) where
  newNode : σ → String → Value → Node × σ
  newEdge : σ → NodeId → NodeId → String → Value → Edge × σ
  insertNode : σ → Node → Outcome σ Unit
  getNode : σ → NodeId → Outcome σ (Option Node)
  updateNode : σ → NodeId → Value → Outcome σ Node
  deleteNode : σ → NodeId → Outcome σ Unit
  getNodesByType : σ → String → Option UInt64 → Outcome σ (List Node)
  insertEdge : σ → Edge → Outcome σ Unit
  getEdgesFrom : σ → NodeId → Option String → Outcome σ (List Edge)
  stats : σ → Outcome σ (UInt64 × UInt64 × UInt64)

inductive Backend (σ : Type) where
  | single (db : DatabaseOps σ)
  | sharded (shards : ShardOps σ)

section

variable {σ : Type}

/-- The response to an outcome. -/
def respond {α : Type} (code : ErrorCode) (ok : α → Response) (out : Outcome σ α) : Handled σ :=
  match out with
  | (.ok a, s) => (some (ok a), s)
  | (.error e, s) => (some (.error code e), s)
  | (.panic, s) => (none, s)

/-- The id that a shard is chosen by. -/
def withNodeId (T : UuidText) (id : String) (s : σ) (f : NodeId → Handled σ) : Handled σ :=
  match NodeId.parse T id with
  | some nodeId => f nodeId
  | none => (some (.error .invalidRequest s!"Invalid node ID: {id}"), s)

namespace Backend

variable (T : UuidText) (b : Backend σ) (s : σ)

def handleInsertNode (nodeType : String) (properties : Value) : Handled σ :=
  match b with
  | .single db => respond .internalError .node (db.insertNode s nodeType properties.toJson)
  | .sharded m =>
      let (node, s) := m.newNode s nodeType properties
      respond .internalError (fun _ => .node node) (m.insertNode s node)

def handleGetNode (id : String) : Handled σ :=
  match b with
  | .single db => respond .internalError .maybeNode (db.getNode s id)
  | .sharded m => withNodeId T id s fun nodeId =>
      respond .internalError .maybeNode (m.getNode s nodeId)

def handleUpdateNode (id : String) (properties : Value) : Handled σ :=
  match b with
  | .single db => respond .nodeNotFound .node (db.updateNode s id properties.toJson)
  | .sharded m => withNodeId T id s fun nodeId =>
      respond .nodeNotFound .node (m.updateNode s nodeId properties)

def handleDeleteNode (id : String) : Handled σ :=
  match b with
  | .single db => respond .nodeNotFound (fun _ => .ok) (db.deleteNode s id)
  | .sharded m => withNodeId T id s fun nodeId =>
      respond .nodeNotFound (fun _ => .ok) (m.deleteNode s nodeId)

def handleGetNodesByType (nodeType : String) (limit : Option UInt64) : Handled σ :=
  match b with
  | .single db => respond .internalError .nodes (db.getAllByType s nodeType limit)
  | .sharded m => respond .internalError .nodes (m.getNodesByType s nodeType limit)

def handleCreateEdge (fromId toId edgeType : String) (properties : Option Value) : Handled σ :=
  match b with
  | .single db =>
      respond .internalError .edge
        (db.createEdge s fromId toId edgeType (properties.map Value.toJson))
  | .sharded m => withNodeId T fromId s fun from_ => withNodeId T toId s fun to_ =>
      let (edge, s) := m.newEdge s from_ to_ edgeType (properties.getD .null)
      respond .internalError (fun _ => .edge edge) (m.insertEdge s edge)

def handleGetEdgesFrom (nodeId : String) (edgeType : Option String) : Handled σ :=
  match b with
  | .single db => respond .internalError .edges (db.getEdgesFrom s nodeId edgeType)
  | .sharded m => withNodeId T nodeId s fun id =>
      respond .internalError .edges (m.getEdgesFrom s id edgeType)

def handleGetEdgesTo (nodeId : String) (edgeType : Option String) : Handled σ :=
  match b with
  | .single db => respond .internalError .edges (db.getEdgesTo s nodeId edgeType)
  | .sharded _ => (some (.error .internalError "Sharded mode doesn't support edges_to"), s)

def handleDeleteEdge (edgeId : String) : Handled σ :=
  match b with
  | .single db => respond .edgeNotFound (fun _ => .ok) (db.deleteEdge s edgeId)
  | .sharded _ => (some (.error .internalError "Edge deletion not supported in sharded mode"), s)

def handleQuery (sql : String) (limit : Option UInt64) : Handled σ :=
  match b with
  | .single db =>
      respond .queryExecutionError (fun r => .queryResult r.1 r.2.1 r.2.2.1 r.2.2.2)
        (db.executeSql s sql limit)
  | .sharded _ => (some (.error .internalError "Query execution not available in sharded mode"), s)

def handleTraverse (startId : String) (depth : UInt32) (edgeTypes : Option (List String)) :
    Handled σ :=
  match b with
  | .single db =>
      respond .queryExecutionError (fun r => .traversalResult r.1 r.2.1 r.2.2)
        (db.traverse s startId depth edgeTypes)
  | .sharded _ => (some (.error .internalError "Traversal not available in sharded mode"), s)

def handleStatus : Handled σ :=
  match b with
  | .single db =>
      respond .internalError (fun r => .status r.1 r.2.1 r.2.2.1 r.2.2.2) (db.status s)
  | .sharded m =>
      respond .internalError (fun r => .status "sharded" r.1 r.2.1 r.2.2) (m.stats s)

end Backend

/-! ### Requests -/

structure RequestHandler (σ : Type) where
  storage : σ
  transactions : Finset UInt64
  txCounter : UInt64

namespace RequestHandler

def new (s : σ) : RequestHandler σ := ⟨s, ∅, 1⟩

/-- The handler after a request to the storage. -/
def stored (h : RequestHandler σ) (out : Handled σ) : Option Response × RequestHandler σ :=
  (out.1, { h with storage := out.2 })

/-- The handler after a request that leaves the storage alone. -/
def answered (out : Response × RequestHandler σ) : Option Response × RequestHandler σ :=
  (some out.1, out.2)

def handleBeginTransaction (h : RequestHandler σ) : Response × RequestHandler σ :=
  (.transactionStarted h.txCounter,
    { h with
      transactions := insert h.txCounter h.transactions
      txCounter := h.txCounter + 1 })

/-- A commit or a rollback. -/
def endTransaction (h : RequestHandler σ) (txId : UInt64) (ended : Response) :
    Response × RequestHandler σ :=
  if txId ∈ h.transactions then (ended, { h with transactions := h.transactions.erase txId })
  else (.error .transactionError "Transaction not found", h)

def handle (T : UuidText) (b : Backend σ) (h : RequestHandler σ) :
    Request → Option Response × RequestHandler σ
  | .ping => (some .pong, h)
  | .disconnect => (some .goodbye, h)
  | .insertNode nodeType properties => h.stored (b.handleInsertNode h.storage nodeType properties)
  | .getNode id => h.stored (b.handleGetNode T h.storage id)
  | .updateNode id properties => h.stored (b.handleUpdateNode T h.storage id properties)
  | .deleteNode id => h.stored (b.handleDeleteNode T h.storage id)
  | .getNodesByType nodeType limit => h.stored (b.handleGetNodesByType h.storage nodeType limit)
  | .createEdge fromId toId edgeType properties =>
      h.stored (b.handleCreateEdge T h.storage fromId toId edgeType properties)
  | .getEdgesFrom nodeId edgeType => h.stored (b.handleGetEdgesFrom T h.storage nodeId edgeType)
  | .getEdgesTo nodeId edgeType => h.stored (b.handleGetEdgesTo h.storage nodeId edgeType)
  | .deleteEdge edgeId => h.stored (b.handleDeleteEdge h.storage edgeId)
  | .query sql limit => h.stored (b.handleQuery h.storage sql limit)
  | .traverse startId depth edgeTypes =>
      h.stored (b.handleTraverse h.storage startId depth edgeTypes)
  | .status => h.stored (b.handleStatus h.storage)
  | .beginTransaction => answered h.handleBeginTransaction
  | .commitTransaction txId => answered (h.endTransaction txId .transactionCommitted)
  | .rollbackTransaction txId => answered (h.endTransaction txId .transactionRolledBack)

end RequestHandler

end

end AresaDb.Server
