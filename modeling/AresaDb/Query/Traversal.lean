import AresaDb.Lib.BreadthFirst
import AresaDb.Store.Graph

/-! # Graph queries

The traversals of the query engine (`query/executor.rs`), all three breadth-first: a bounded
traversal from a node, a shortest path, and the connected components of the nodes of a type.  Ids
are marked when they come out of the queue, by their text; an id may wait several times.

The queries read through the storage, which may change its cache on the way.  Each queue entry but
the first is there for an index entry of an edge, so that the loops run for no more rounds than
there are of these. -/

namespace AresaDb.Query

open AresaDb.Store

structure TraversalResult where
  root : Node
  nodes : List Node
  edges : List Edge
  depth : ℕ
  adjacency : OrdMap String (List String)

/-- The variables of a traversal. -/
structure Traversal where
  queue : List (NodeId × ℕ)
  visitedIds : List String
  visitedNodes : OrdMap String Node
  allEdges : List Edge
  adjacency : OrdMap String (List String)

/-- An optional list of edge types admits an edge. -/
def typesAdmit (edgeTypes : Option (List String)) (edge : Edge) : Bool :=
  match edgeTypes with
  | some types => types.contains edge.edgeType
  | none => true

section

variable (F : JsonFormat) (T : UuidText)

/-! ### Traversal -/

/-- One round, for an id that came out of the queue; `none` is the error of a read. -/
def Traversal.round (maxDepth : ℕ) (edgeTypes : Option (List String)) (s : TieredStorage)
    (t : Traversal) (currentId : NodeId) (depth : ℕ) (rest : List (NodeId × ℕ)) :
    Option (Traversal × TieredStorage) :=
  let idStr := currentId.display
  let t := { t with queue := rest }
  if idStr ∈ t.visitedIds then some (t, s)
  else do
    let t := { t with visitedIds := idStr :: t.visitedIds }
    let (node, s) ← Database.getNode F s T idStr
    let t :=
      { t with
        visitedNodes :=
          match node with
          | some node => t.visitedNodes.insert idStr node
          | none => t.visitedNodes }
    if maxDepth ≤ depth then return (t, s)
    else
      let edges ← Database.getEdgesFrom s T idStr none
      let allowed := edges.filter (typesAdmit edgeTypes)
      let new := allowed.filter fun edge => edge.to_.display ∉ t.visitedIds
      let t :=
        { t with
          queue := t.queue ++ new.map fun edge => (edge.to_, depth + 1)
          allEdges := t.allEdges ++ allowed
          adjacency := t.adjacency.insert idStr (allowed.map fun edge => edge.to_.display) }
      return (t, s)

/-- The rounds until the queue is empty; `none` is an error, or that there are more rounds. -/
def traverseLoop (maxDepth : ℕ) (edgeTypes : Option (List String)) :
    ℕ → TieredStorage → Traversal → Option (Traversal × TieredStorage)
  | 0, _, _ => none
  | fuel + 1, s, t =>
      match t.queue with
      | [] => some (t, s)
      | (currentId, depth) :: rest => do
          let (t, s) ← t.round F T maxDepth edgeTypes s currentId depth rest
          traverseLoop maxDepth edgeTypes fuel s t

/-- `none` is the error of a read, or that there is no start node. -/
def traverse (s : TieredStorage) (startNodeId : String) (maxDepth : ℕ)
    (edgeTypes : Option (List String)) : Option (TraversalResult × TieredStorage) := do
  let startId ← NodeId.parse T startNodeId
  let (node, s) ← Database.getNode F s T startNodeId
  let root ← node
  let (t, s) ← traverseLoop F T maxDepth edgeTypes (s.local_.edgeFromIndex.entries.size + 2) s
    ⟨[(startId, 0)], [], ∅, [], ∅⟩
  return (⟨root, t.visitedNodes.values, t.allEdges, maxDepth, t.adjacency⟩, s)

/-! ### Shortest path -/

/-- The nodes of a path; ids without a node are left out. -/
def readPath : TieredStorage → List String → Option (List Node × TieredStorage)
  | s, [] => some ([], s)
  | s, id :: path => do
      let (node, s) ← Database.getNode F s T id
      let (nodes, s) ← readPath s path
      return (node.toList ++ nodes, s)

def shortestPathLoop (toStr : String) (maxDepth : ℕ) :
    ℕ → TieredStorage → List (NodeId × List String) → List String →
      Option (Option (List Node) × TieredStorage)
  | 0, _, _, _ => none
  | _ + 1, s, [], _ => some (none, s)
  | fuel + 1, s, (current, path) :: queue, visited =>
      let currentStr := current.display
      if currentStr = toStr then do
        let (nodes, s) ← readPath F T s path
        return (some nodes, s)
      else if currentStr ∈ visited ∨ maxDepth < path.length then
        shortestPathLoop toStr maxDepth fuel s queue visited
      else do
        let visited := currentStr :: visited
        let edges ← Database.getEdgesFrom s T currentStr none
        let new := edges.filter fun edge => edge.to_.display ∉ visited
        shortestPathLoop toStr maxDepth fuel s
          (queue ++ new.map fun edge => (edge.to_, path ++ [edge.to_.display])) visited

/-- `none` is the error of a read; the inner `none` is that no path was found. -/
def shortestPath (s : TieredStorage) (fromId toId : String) (maxDepth : ℕ) :
    Option (Option (List Node) × TieredStorage) := do
  let source ← NodeId.parse T fromId
  shortestPathLoop F T toId maxDepth (s.local_.edgeFromIndex.entries.size + 2) s
    [(source, [fromId])] []

/-! ### Connected components -/

/-- The search from the ids of a queue, with the nodes found so far. -/
def componentLoop :
    ℕ → TieredStorage → List NodeId → List String → List Node →
      Option (List Node × List String × TieredStorage)
  | 0, _, _, _, _ => none
  | _ + 1, s, [], visited, component => some (component, visited, s)
  | fuel + 1, s, current :: queue, visited, component =>
      let currentStr := current.display
      if currentStr ∈ visited then componentLoop fuel s queue visited component
      else do
        let visited := currentStr :: visited
        let (node, s) ← Database.getNode F s T currentStr
        let edgesFrom ← Database.getEdgesFrom s T currentStr none
        let edgesTo ← Database.getEdgesTo s T currentStr none
        let neighbors := edgesFrom.map Edge.to_ ++ edgesTo.map Edge.from_
        componentLoop fuel s (queue ++ neighbors.filter fun id => id.display ∉ visited) visited
          (component ++ node.toList)

/-- One search for each node that no search has visited before. -/
def componentsLoop :
    TieredStorage → List Node → List String → Option (List (List Node) × TieredStorage)
  | s, [], _ => some ([], s)
  | s, node :: nodes, visited =>
      if node.id.display ∈ visited then componentsLoop s nodes visited
      else do
        let fuel := s.local_.edgeFromIndex.entries.size + s.local_.edgeToIndex.entries.size + 2
        let (component, visited, s) ← componentLoop F T fuel s [node.id] visited []
        let (components, s) ← componentsLoop s nodes visited
        return (if component.isEmpty then components else component :: components, s)

def connectedComponents (s : TieredStorage) (nodeType : String) :
    Option (List (List Node) × TieredStorage) := do
  let (allNodes, s) ← Database.getAllByType F s nodeType none
  componentsLoop F T s allNodes []

end

/-! ### Arcs -/

/-- An allowed edge joins two ids. -/
def Joins (edges : OrdMap EdgeId Edge) (edgeTypes : Option (List String)) (a b : NodeId) : Prop :=
  ∃ e ∈ outgoing edges a, typesAdmit edgeTypes e = true ∧ e.to_ = b

/-- The texts of the sources of the entries of an index. -/
def arcs (index : Multimap NodeId EdgeId) : List String :=
  index.entries.toList.map fun e => (ofLex e.1).1.display

theorem length_arcs (index : Multimap NodeId EdgeId) :
    (arcs index).length = index.entries.size := by
  rw [arcs, List.length_map, Std.ExtTreeMap.length_toList]

theorem length_get_eq_count (index : Multimap NodeId EdgeId) (id : NodeId) :
    (index.get id).length = (arcs index).count id.display := by
  rw [Multimap.get, List.length_map, arcs, ← List.countP_eq_length_filter, List.count,
    List.countP_map]
  refine List.countP_congr fun e _ => ?_
  simp [NodeId.display_injective.eq_iff]

end AresaDb.Query
