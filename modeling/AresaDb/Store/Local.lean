import AresaDb.Lib.Multimap
import AresaDb.Store.Value

/-! # Local storage

The tables of the local database and the operations on nodes and edges (`storage/local.rs`).  Every
operation is one transaction of the embedded database, so it is one step here.

There are two layouts of a node: a full row in `nodes`, and an index record with a payload of its
own.  Readers of the second layout fall back to the first.  Deleting a node, in either layout,
removes the rows of its edges but only its own side of their index entries
(`mem_fromIndex_deleteEdgesOf`); what is left dangles until a reader looks the edge up.

A row is parsed whenever an operation reads it, and the operation fails when it does not parse:
`none` is the error, and nothing has changed. -/

namespace AresaDb.Store

/-- The tables of the local database. -/
structure LocalStorage where
  /-- Full rows of nodes. -/
  nodes : OrdMap NodeId Node
  nodeIndexes : OrdMap NodeId NodeIndex
  /-- Payloads, as what their bytes are read back to. -/
  nodePayloads : OrdMap NodeId Props
  edges : OrdMap EdgeId Edge
  nodeTypeIndex : Multimap String NodeId
  edgeFromIndex : Multimap NodeId EdgeId
  edgeToIndex : Multimap NodeId EdgeId
  edgeTypeIndex : Multimap String EdgeId
  /-- Nodes by type, field and value of a property. -/
  propertyIndex : Multimap String NodeId
  indexRegistry : OrdMap String Unit
  /-- Nodes by type, field and token. -/
  fulltextIndex : Multimap String NodeId
  fulltextRegistry : OrdMap String Unit
  /-- Term frequencies of a document. -/
  fulltextDocFreq : OrdMap (NodeId ×ₗ String) (OrdMap String ℕ)

namespace LocalStorage

/-- A new database. -/
def create : LocalStorage :=
  ⟨∅, ∅, ∅, ∅, .empty, .empty, .empty, .empty, .empty, ∅, .empty, ∅, ∅⟩

variable (J : Serde) (s : LocalStorage)

/-! ### Nodes as full rows -/

def insertNode (node : Node) : LocalStorage :=
  { s with
    nodes := s.nodes.insert node.id (J.node node)
    nodeTypeIndex := s.nodeTypeIndex.insert node.nodeType node.id }

def getNode (id : NodeId) : Option (Option Node) := readRow Node.parses s.nodes[id]?

/-- A row with properties merged in at a time. -/
def touchNode (now : Timestamp) (node : Node) (properties : Value) : Node :=
  { node with properties := mergeProps node.properties properties, updatedAt := now }

/-- It is an error, too, that the node is not found. -/
def updateNode (now : Timestamp) (id : NodeId) (properties : Value) : Option LocalStorage :=
  (s.nodes[id]?.filter Node.parses).map fun node =>
    { s with nodes := s.nodes.insert id (J.node (touchNode now node properties)) }

/-- Remove an edge row and its entry under a node of the from index. -/
def dropFrom (id : NodeId) (s : LocalStorage) (edgeId : EdgeId) : LocalStorage :=
  { s with
    edges := s.edges.erase edgeId
    edgeFromIndex := s.edgeFromIndex.remove id edgeId }

/-- Remove an edge row and its entry under a node of the to index. -/
def dropTo (id : NodeId) (s : LocalStorage) (edgeId : EdgeId) : LocalStorage :=
  { s with
    edges := s.edges.erase edgeId
    edgeToIndex := s.edgeToIndex.remove id edgeId }

/-- The part of node deletion that removes edges: those that leave the node, then those that
enter it. -/
def deleteEdgesOf (id : NodeId) : LocalStorage :=
  let s₁ := (s.edgeFromIndex.get id).foldl (dropFrom id) s
  (s₁.edgeToIndex.get id).foldl (dropTo id) s₁

/-- What is left without a row, its type entry and its edges. -/
def removeNode (id : NodeId) : LocalStorage :=
  let nodeTypeIndex := match s.nodes[id]? with
    | some node => s.nodeTypeIndex.remove node.nodeType id
    | none => s.nodeTypeIndex
  deleteEdgesOf { s with nodes := s.nodes.erase id, nodeTypeIndex := nodeTypeIndex } id

def deleteNode (id : NodeId) : Option LocalStorage :=
  if s.nodes[id]?.all Node.parses then some (s.removeNode id) else none

/-- The first `limit` elements, all of them without a limit. -/
def takeLimit {α : Type} (limit : Option ℕ) (l : List α) : List α :=
  match limit with
  | some n => l.take n
  | none => l

/-- The rows of the nodes listed under a type. -/
def rowsOfType (nodeType : String) : List Node :=
  (s.nodeTypeIndex.get nodeType).filterMap fun id => s.nodes[id]?

def getNodesByType (nodeType : String) (limit : Option ℕ) : Option (List Node) :=
  readRows Node.parses (takeLimit limit (s.rowsOfType nodeType))

def getAllNodes (limit : Option ℕ) : Option (List Node) :=
  readRows Node.parses (takeLimit limit s.nodes.values)

/-! ### Edges -/

def insertEdge (edge : Edge) : LocalStorage :=
  { s with
    edges := s.edges.insert edge.id (J.edge edge)
    edgeFromIndex := s.edgeFromIndex.insert edge.from_ edge.id
    edgeToIndex := s.edgeToIndex.insert edge.to_ edge.id
    edgeTypeIndex := s.edgeTypeIndex.insert edge.edgeType edge.id }

/-- The edges of a batch are inserted one after the other in one transaction. -/
def insertEdgesBatch (edges : List Edge) : LocalStorage := edges.foldl (insertEdge J) s

@[simp] theorem insertEdgesBatch_nil : s.insertEdgesBatch J [] = s := rfl

@[simp] theorem insertEdgesBatch_cons (e : Edge) (es : List Edge) :
    s.insertEdgesBatch J (e :: es) = (s.insertEdge J e).insertEdgesBatch J es := rfl

def getEdge (id : EdgeId) : Option (Option Edge) := readRow Edge.parses s.edges[id]?

/-- An optional edge type admits an edge. -/
def typeAdmits (edgeType : Option String) (edge : Edge) : Bool :=
  match edgeType with
  | some t => edge.edgeType = t
  | none => true

/-- The rows of the edges that an index lists. -/
def edgeRows (ids : List EdgeId) : List Edge := ids.filterMap fun id => s.edges[id]?

/-- Look the edges of an index up, with an optional edge type; a row of another type is parsed
too. -/
def readEdges (ids : List EdgeId) (edgeType : Option String) : Option (List Edge) :=
  (readRows Edge.parses (s.edgeRows ids)).map fun edges => edges.filter (typeAdmits edgeType)

def getEdgesFrom (nodeId : NodeId) (edgeType : Option String) : Option (List Edge) :=
  s.readEdges (s.edgeFromIndex.get nodeId) edgeType

def getEdgesTo (nodeId : NodeId) (edgeType : Option String) : Option (List Edge) :=
  s.readEdges (s.edgeToIndex.get nodeId) edgeType

/-- What is left without an edge and its index entries. -/
def removeEdge (id : EdgeId) : LocalStorage :=
  match s.edges[id]? with
  | some edge =>
      { s with
        edges := s.edges.erase id
        edgeFromIndex := s.edgeFromIndex.remove edge.from_ id
        edgeToIndex := s.edgeToIndex.remove edge.to_ id
        edgeTypeIndex := s.edgeTypeIndex.remove edge.edgeType id }
  | none => { s with edges := s.edges.erase id }

def deleteEdge (id : EdgeId) : Option LocalStorage :=
  if s.edges[id]?.all Edge.parses then some (s.removeEdge id) else none

def getEdgesByType (edgeType : String) (limit : Option ℕ) : Option (List Edge) :=
  readRows Edge.parses (takeLimit limit (s.edgeRows (s.edgeTypeIndex.get edgeType)))

/-! ### Nodes as index record and payload -/

def insertNodeTiered (id : NodeId) (index : NodeIndex) (payload : Props) : LocalStorage :=
  { s with
    nodeIndexes := s.nodeIndexes.insert id index
    nodePayloads := s.nodePayloads.insert id payload
    nodeTypeIndex := s.nodeTypeIndex.insert index.nodeType id }

def insertNodesTieredBatch (nodes : List (NodeId × NodeIndex × Props)) : LocalStorage :=
  nodes.foldl (fun s n => s.insertNodeTiered n.1 n.2.1 n.2.2) s

/-- The payload a full row stands for. -/
def rowPayload (node : Node) : Props := J.props node.properties

/-- The index record a full row stands for. -/
def rowIndex (node : Node) : NodeIndex := .fromNode node .local (J.size node.properties)

def getNodeIndex (id : NodeId) : Option (Option NodeIndex) :=
  match s.nodeIndexes[id]? with
  | some index => some (some index)
  | none => (readRow Node.parses s.nodes[id]?).map fun row => row.map (rowIndex J)

/-- The bytes of a payload are not parsed, but a row in its place is. -/
def getPayload (id : NodeId) : Option (Option Props) :=
  match s.nodePayloads[id]? with
  | some payload => some (some payload)
  | none => (readRow Node.parses s.nodes[id]?).map fun row => row.map (rowPayload J)

/-- The index record of a node, else that of its row. -/
def recordOf (id : NodeId) : Option NodeIndex :=
  match s.nodeIndexes[id]? with
  | some index => some index
  | none => s.nodes[id]?.map (rowIndex J)

/-- A row is read only in place of a missing record, and parses. -/
def recordParses (id : NodeId) : Bool :=
  s.nodeIndexes[id]?.isSome || s.nodes[id]?.all Node.parses

def putPayload (id : NodeId) (payload : Props) : LocalStorage :=
  { s with nodePayloads := s.nodePayloads.insert id payload }

def deletePayload (id : NodeId) : LocalStorage :=
  { s with nodePayloads := s.nodePayloads.erase id }

def updateNodeIndex (id : NodeId) (index : NodeIndex) : LocalStorage :=
  { s with nodeIndexes := s.nodeIndexes.insert id index }

/-- Write the index record and the payload, and the full row with them. -/
def writeNodeTiered (id : NodeId) (index : NodeIndex) (payload : Props) : LocalStorage :=
  { s with
    nodeIndexes := s.nodeIndexes.insert id index
    nodePayloads := s.nodePayloads.insert id payload
    nodes := s.nodes.insert id (J.node (index.toNode id payload)) }

/-- The full row is made from the payload as it is parsed. -/
def updateNodeTiered (id : NodeId) (index : NodeIndex) (payload : Props) : Option LocalStorage :=
  if parses payload then some (s.writeNodeTiered J id index payload) else none

/-- The type under which a node is listed: that of its index record, else that of its row. -/
def typeOf (id : NodeId) : Option String :=
  match s.nodeIndexes[id]? with
  | some index => some index.nodeType
  | none => s.nodes[id]?.map Node.nodeType

/-- What is left without a node of either layout, its type entry and its edges. -/
def removeNodeTiered (id : NodeId) : LocalStorage :=
  let nodeTypeIndex := match s.typeOf id with
    | some nt => s.nodeTypeIndex.remove nt id
    | none => s.nodeTypeIndex
  deleteEdgesOf
    { s with
      nodeTypeIndex := nodeTypeIndex
      nodeIndexes := s.nodeIndexes.erase id
      nodePayloads := s.nodePayloads.erase id
      nodes := s.nodes.erase id } id

def deleteNodeTiered (id : NodeId) : Option LocalStorage :=
  if s.recordParses id then some (s.removeNodeTiered id) else none

/-- The nodes listed under a type, with the index records of those that are there. -/
def recordsOfType (nodeType : String) : List (NodeId × NodeIndex) :=
  (s.nodeTypeIndex.get nodeType).filterMap fun id =>
    (s.recordOf J id).map fun index => (id, index)

def getNodeIndexesByType (nodeType : String) (limit : Option ℕ) :
    Option (List (NodeId × NodeIndex)) :=
  readRows (fun e => s.recordParses e.1) (takeLimit limit (s.recordsOfType J nodeType))

/-- The index records; the rows are listed only when no record is. -/
def getAllNodeIndexes (limit : Option ℕ) : Option (List (NodeId × NodeIndex)) :=
  let results := takeLimit limit s.nodeIndexes.toList
  if results.isEmpty then
    (readRows (fun e => e.2.parses) (takeLimit limit s.nodes.toList)).map fun rows =>
      rows.map fun e => (e.1, rowIndex J e.2)
  else some results

/-- Both halves of every row. -/
def splitRows : LocalStorage :=
  { s with
    nodeIndexes := s.nodeIndexes.insertAll Prod.fst (fun e => rowIndex J e.2) s.nodes.toList
    nodePayloads := s.nodePayloads.insertAll Prod.fst (fun e => rowPayload J e.2) s.nodes.toList }

/-- Split every row in two, unless some index record is there already. -/
def migrateToTiered : Option LocalStorage :=
  if s.nodeIndexes.isEmpty then
    if s.nodes.values.all Node.parses then some (s.splitRows J) else none
  else some s

theorem takeLimit_map {α β : Type} (f : α → β) (limit : Option ℕ) (l : List α) :
    (takeLimit limit l).map f = takeLimit limit (l.map f) := by
  cases limit with
  | none => rfl
  | some n => exact List.map_take

theorem takeLimit_sublist {α : Type} (limit : Option ℕ) (l : List α) :
    (takeLimit limit l).Sublist l := by
  unfold takeLimit
  cases limit with
  | none => exact .refl l
  | some n => exact List.take_sublist n l

/-! ### What node deletion does to edges -/

variable {s}

theorem foldl_dropFrom (id : NodeId) (ids : List EdgeId) :
    ids.foldl (dropFrom id) s =
      { s with
        edges := ids.foldl (fun m e => m.erase e) s.edges
        edgeFromIndex := ids.foldl (fun m e => m.remove id e) s.edgeFromIndex } := by
  induction ids generalizing s with
  | nil => rfl
  | cons e ids ih =>
      rw [List.foldl_cons, ih]
      rfl

theorem foldl_dropTo (id : NodeId) (ids : List EdgeId) :
    ids.foldl (dropTo id) s =
      { s with
        edges := ids.foldl (fun m e => m.erase e) s.edges
        edgeToIndex := ids.foldl (fun m e => m.remove id e) s.edgeToIndex } := by
  induction ids generalizing s with
  | nil => rfl
  | cons e ids ih =>
      rw [List.foldl_cons, ih]
      rfl

theorem deleteEdgesOf_eq (s : LocalStorage) (id : NodeId) :
    s.deleteEdgesOf id =
      { s with
        edges := (s.edges.eraseAll (s.edgeFromIndex.get id)).eraseAll (s.edgeToIndex.get id)
        edgeFromIndex := s.edgeFromIndex.removeAll id (s.edgeFromIndex.get id)
        edgeToIndex := s.edgeToIndex.removeAll id (s.edgeToIndex.get id) } := by
  unfold deleteEdgesOf
  rw [foldl_dropFrom]
  exact foldl_dropTo id _

/-- The edges of a node are those its two index sides list. -/
theorem get_edges_deleteEdgesOf (s : LocalStorage) (id : NodeId) (i : EdgeId) :
    (s.deleteEdgesOf id).edges[i]? =
      if (id, i) ∈ s.edgeFromIndex ∨ (id, i) ∈ s.edgeToIndex then none else s.edges[i]? := by
  rw [deleteEdgesOf_eq, OrdMap.get_eraseAll, OrdMap.get_eraseAll]
  simp only [Multimap.mem_get]
  by_cases hto : (id, i) ∈ s.edgeToIndex
  · simp [hto]
  · simp [hto]

theorem mem_fromIndex_deleteEdgesOf {id : NodeId} {e : NodeId × EdgeId} :
    e ∈ (s.deleteEdgesOf id).edgeFromIndex ↔ e.1 ≠ id ∧ e ∈ s.edgeFromIndex := by
  rw [deleteEdgesOf_eq]
  exact Multimap.mem_removeAll_get

theorem mem_toIndex_deleteEdgesOf {id : NodeId} {e : NodeId × EdgeId} :
    e ∈ (s.deleteEdgesOf id).edgeToIndex ↔ e.1 ≠ id ∧ e ∈ s.edgeToIndex := by
  rw [deleteEdgesOf_eq]
  exact Multimap.mem_removeAll_get

theorem typeIndex_deleteEdgesOf (s : LocalStorage) (id : NodeId) :
    (s.deleteEdgesOf id).edgeTypeIndex = s.edgeTypeIndex := by
  rw [deleteEdgesOf_eq]

/-! ### Deleting a full row -/

theorem removeNode_eq (s : LocalStorage) (id : NodeId) :
    s.removeNode id =
      deleteEdgesOf
        { s with
          nodes := s.nodes.erase id
          nodeTypeIndex := (s.removeNode id).nodeTypeIndex } id := by
  unfold removeNode
  rw [deleteEdgesOf_eq, deleteEdgesOf_eq]

theorem get_edges_removeNode (s : LocalStorage) (id : NodeId) (i : EdgeId) :
    (s.removeNode id).edges[i]? =
      if (id, i) ∈ s.edgeFromIndex ∨ (id, i) ∈ s.edgeToIndex then none else s.edges[i]? := by
  rw [removeNode_eq]
  exact get_edges_deleteEdgesOf _ id i

theorem mem_fromIndex_removeNode {id : NodeId} {e : NodeId × EdgeId} :
    e ∈ (s.removeNode id).edgeFromIndex ↔ e.1 ≠ id ∧ e ∈ s.edgeFromIndex := by
  rw [removeNode_eq]
  exact mem_fromIndex_deleteEdgesOf

theorem mem_toIndex_removeNode {id : NodeId} {e : NodeId × EdgeId} :
    e ∈ (s.removeNode id).edgeToIndex ↔ e.1 ≠ id ∧ e ∈ s.edgeToIndex := by
  rw [removeNode_eq]
  exact mem_toIndex_deleteEdgesOf

theorem edgeTypeIndex_removeNode (s : LocalStorage) (id : NodeId) :
    (s.removeNode id).edgeTypeIndex = s.edgeTypeIndex := by
  rw [removeNode_eq]
  exact typeIndex_deleteEdgesOf _ id

theorem nodes_removeNode (s : LocalStorage) (id : NodeId) :
    (s.removeNode id).nodes = s.nodes.erase id := by
  unfold removeNode
  rw [deleteEdgesOf_eq]

/-- Only entries of the deleted node go from the type index. -/
theorem mem_typeIndex_removeNode {id : NodeId} {e : String × NodeId} :
    (e ∈ (s.removeNode id).nodeTypeIndex → e ∈ s.nodeTypeIndex) ∧
      (e.2 ≠ id → e ∈ s.nodeTypeIndex → e ∈ (s.removeNode id).nodeTypeIndex) := by
  have hindex : (s.removeNode id).nodeTypeIndex = match s.nodes[id]? with
      | some node => s.nodeTypeIndex.remove node.nodeType id
      | none => s.nodeTypeIndex := by
    unfold removeNode
    rw [deleteEdgesOf_eq]
  rw [hindex]
  cases s.nodes[id]? with
  | none => exact ⟨fun he => he, fun _ he => he⟩
  | some node =>
      refine ⟨fun he => (Multimap.mem_remove.mp he).2, fun hne he => ?_⟩
      exact Multimap.mem_remove.mpr ⟨fun heq => hne (congrArg Prod.snd heq), he⟩

theorem edges_removeEdge (s : LocalStorage) (id : EdgeId) :
    (s.removeEdge id).edges = s.edges.erase id := by
  unfold removeEdge
  split <;> rfl

/-- Only entries of the deleted edge go from the edge indexes. -/
theorem mem_index_removeEdge {id : EdgeId} :
    (∀ e : NodeId × EdgeId, (e ∈ (s.removeEdge id).edgeFromIndex → e ∈ s.edgeFromIndex) ∧
      (e.2 ≠ id → e ∈ s.edgeFromIndex → e ∈ (s.removeEdge id).edgeFromIndex)) ∧
    (∀ e : NodeId × EdgeId, (e ∈ (s.removeEdge id).edgeToIndex → e ∈ s.edgeToIndex) ∧
      (e.2 ≠ id → e ∈ s.edgeToIndex → e ∈ (s.removeEdge id).edgeToIndex)) ∧
    (∀ e : String × EdgeId, (e ∈ (s.removeEdge id).edgeTypeIndex → e ∈ s.edgeTypeIndex) ∧
      (e.2 ≠ id → e ∈ s.edgeTypeIndex → e ∈ (s.removeEdge id).edgeTypeIndex)) := by
  have hremove : ∀ {κ : Type} [LinearOrder κ] (m : Multimap κ EdgeId) (k : κ) (e : κ × EdgeId),
      (e ∈ m.remove k id → e ∈ m) ∧ (e.2 ≠ id → e ∈ m → e ∈ m.remove k id) := by
    intro κ _ m k e
    refine ⟨fun he => (Multimap.mem_remove.mp he).2, fun hne he => ?_⟩
    exact Multimap.mem_remove.mpr ⟨fun heq => hne (congrArg Prod.snd heq), he⟩
  unfold removeEdge
  cases s.edges[id]? with
  | none => exact ⟨fun e => ⟨fun he => he, fun _ he => he⟩, fun e => ⟨fun he => he, fun _ he => he⟩,
      fun e => ⟨fun he => he, fun _ he => he⟩⟩
  | some edge => exact ⟨hremove _ _, hremove _ _, hremove _ _⟩

end LocalStorage

end AresaDb.Store
