import AresaDb.Store.Database
import AresaDb.Store.Edges

/-! # The graph of the database

A storage keeps a graph when it keeps the nodes, has the rows of the edges, with exact indexes by
source and by target, and all of it parses (`KeepsGraph`).  Then a lookup by a spelling of an id
returns the node, and the edges that leave or enter it in the order of their ids; an edge may lead
to an id without a node.

A new storage keeps the empty graph, and so does every storage that is reached by insertions of
readable nodes and edges under new ids, updates that stay readable, and deletions
(`keepsGraph_run`). -/

namespace AresaDb.Store

namespace TieredStorage

variable (J : Serde) (s : TieredStorage)

def insertEdge (edge : Edge) : TieredStorage := { s with local_ := s.local_.insertEdge J edge }

def deleteEdge (id : EdgeId) : Option TieredStorage :=
  (s.local_.deleteEdge id).map fun local' => { s with local_ := local' }

end TieredStorage

/-- The edges that leave an id, in the order of their ids. -/
def outgoing (edges : OrdMap EdgeId Edge) (id : NodeId) : List Edge :=
  edges.values.filter fun e => e.from_ = id

/-- The edges that enter an id, in the order of their ids. -/
def incoming (edges : OrdMap EdgeId Edge) (id : NodeId) : List Edge :=
  edges.values.filter fun e => e.to_ = id

/-- The storage holds the nodes and the edges, and all of them parse.  Edges had other ids than the
used ones. -/
structure KeepsGraph (J : Serde) (used : EdgeId → Prop) (nodes : OrdMap NodeId Node)
    (edges : OrdMap EdgeId Edge) (s : TieredStorage) : Prop where
  keeps : Keeps nodes s
  parses : AllParse nodes
  rows : s.local_.edges = edges
  rowParses : ∀ (i : EdgeId) (e : Edge), edges[i]? = some e → e.parses = true
  tables : ∃ live, EdgesInv J used live s.local_

section

variable {J : Serde} {U : Unicode} {T : UuidText} {F : JsonFormat} {used : EdgeId → Prop}
  {nodes : OrdMap NodeId Node} {edges : OrdMap EdgeId Edge} {s s' : TieredStorage}

theorem mem_outgoing (hid : ∀ (i : EdgeId) (e : Edge), edges[i]? = some e → e.id = i) {id : NodeId}
    {e : Edge} : e ∈ outgoing edges id ↔ edges[e.id]? = some e ∧ e.from_ = id := by
  rw [outgoing, List.mem_filter, OrdMap.mem_values, decide_eq_true_iff]
  refine and_congr_left fun _ => ⟨?_, fun he => ⟨e.id, he⟩⟩
  rintro ⟨i, hi⟩
  rwa [hid i e hi]

theorem mem_incoming (hid : ∀ (i : EdgeId) (e : Edge), edges[i]? = some e → e.id = i) {id : NodeId}
    {e : Edge} : e ∈ incoming edges id ↔ edges[e.id]? = some e ∧ e.to_ = id := by
  rw [incoming, List.mem_filter, OrdMap.mem_values, decide_eq_true_iff]
  refine and_congr_left fun _ => ⟨?_, fun he => ⟨e.id, he⟩⟩
  rintro ⟨i, hi⟩
  rwa [hid i e hi]

namespace KeepsGraph

theorem edge_id (h : KeepsGraph J used nodes edges s) (i : EdgeId) (e : Edge)
    (hi : edges[i]? = some e) : e.id = i := by
  obtain ⟨live, htables⟩ := h.tables
  rw [← h.rows] at hi
  exact htables.row_id hi

theorem node_id (h : KeepsGraph J used nodes edges s) {id : NodeId} {n : Node}
    (hn : nodes[id]? = some n) : n.id = id := h.keeps.coherent.node_id hn

/-! ### Reads -/

/-- Nothing but the cache has changed. -/
theorem read (h : KeepsGraph J used nodes edges s) (hlocal : s'.local_ = s.local_)
    (hs' : Coherent nodes s') : KeepsGraph J used nodes edges s' where
  keeps := h.keeps.read hlocal hs'
  parses := h.parses
  rows := by rw [hlocal, h.rows]
  rowParses := h.rowParses
  tables := by
    rw [hlocal]
    exact h.tables

theorem getNode (h : KeepsGraph J used nodes edges s) {spelling : String} {id : NodeId}
    (hid : NodeId.parse T spelling = some id) :
    ∃ s', Database.getNode F s T spelling = some (nodes[id]?, s') ∧ s'.local_ = s.local_ ∧
      KeepsGraph J used nodes edges s' := by
  obtain ⟨s', hread, hlocal, hs'⟩ := h.keeps.coherent.getNode (J := F.serde) id
  rw [if_pos (h.parses.all id)] at hread
  refine ⟨s', ?_, hlocal, h.read hlocal hs'⟩
  unfold Database.getNode
  rw [hid]
  exact hread

theorem all_parses (h : KeepsGraph J used nodes edges s) (p : Edge → Bool) :
    (edges.values.filter p).all Edge.parses = true := by
  refine List.all_eq_true.mpr fun e he => ?_
  obtain ⟨i, hi⟩ := (OrdMap.mem_values edges e).mp (List.mem_of_mem_filter he)
  exact h.rowParses i e hi

/-- Rows that parse are read as they are listed. -/
theorem readEdges {ids : List EdgeId} {rows : List Edge} (hrows : s.local_.edgeRows ids = rows)
    (hparses : rows.all Edge.parses = true) : s.local_.readEdges ids none = some rows := by
  unfold LocalStorage.readEdges readRows
  rw [hrows, if_pos hparses, Option.map_some]
  exact congrArg some (List.filter_eq_self.mpr fun _ _ => rfl)

theorem rows_from (h : KeepsGraph J used nodes edges s) (id : NodeId) :
    s.local_.edgeRows (s.local_.edgeFromIndex.get id) = outgoing edges id := by
  obtain ⟨live, htables⟩ := h.tables
  unfold LocalStorage.edgeRows
  rw [htables.fromIndex.filterMap_get, h.rows]
  exact List.filter_congr fun e _ => decide_eq_decide.mpr Iff.rfl

theorem rows_to (h : KeepsGraph J used nodes edges s) (id : NodeId) :
    s.local_.edgeRows (s.local_.edgeToIndex.get id) = incoming edges id := by
  obtain ⟨live, htables⟩ := h.tables
  unfold LocalStorage.edgeRows
  rw [htables.toIndex.filterMap_get, h.rows]
  exact List.filter_congr fun e _ => decide_eq_decide.mpr Iff.rfl

/-- The edges of an id are no more than its entries in the index. -/
theorem length_outgoing_le (h : KeepsGraph J used nodes edges s) (id : NodeId) :
    (outgoing edges id).length ≤ (s.local_.edgeFromIndex.get id).length := by
  rw [← h.rows_from]
  exact List.length_filterMap_le _ _

theorem length_incoming_le (h : KeepsGraph J used nodes edges s) (id : NodeId) :
    (incoming edges id).length ≤ (s.local_.edgeToIndex.get id).length := by
  rw [← h.rows_to]
  exact List.length_filterMap_le _ _

theorem local_getEdgesFrom (h : KeepsGraph J used nodes edges s) (id : NodeId) :
    s.local_.getEdgesFrom id none = some (outgoing edges id) :=
  readEdges (h.rows_from id) (h.all_parses _)

theorem local_getEdgesTo (h : KeepsGraph J used nodes edges s) (id : NodeId) :
    s.local_.getEdgesTo id none = some (incoming edges id) :=
  readEdges (h.rows_to id) (h.all_parses _)

theorem getEdgesFrom (h : KeepsGraph J used nodes edges s) {spelling : String} {id : NodeId}
    (hid : NodeId.parse T spelling = some id) :
    Database.getEdgesFrom s T spelling none = some (outgoing edges id) := by
  unfold Database.getEdgesFrom
  rw [hid]
  exact h.local_getEdgesFrom id

theorem getEdgesTo (h : KeepsGraph J used nodes edges s) {spelling : String} {id : NodeId}
    (hid : NodeId.parse T spelling = some id) :
    Database.getEdgesTo s T spelling none = some (incoming edges id) := by
  unfold Database.getEdgesTo
  rw [hid]
  exact h.local_getEdgesTo id

/-- The nodes of a type come out in the order of their ids. -/
theorem getAllByType (h : KeepsGraph J used nodes edges s) (nodeType : String) :
    ∃ s', Database.getAllByType F s nodeType none =
        some (nodes.values.filter fun n => n.nodeType = nodeType, s') ∧
      s'.local_ = s.local_ ∧ KeepsGraph J used nodes edges s' := by
  obtain ⟨s', hread, hlocal, hs'⟩ := h.keeps.coherent.getNodesByType (J := F.serde) nodeType none
  refine ⟨s', ?_, hlocal, h.read hlocal hs'⟩
  have hindex : s.local_.nodeTypeIndex.Covering nodes Node.nodeType fun _ => True :=
    { covers := fun id n hn => (h.keeps.listed n.nodeType id).mpr ⟨n, hn, rfl⟩
      sound := fun t id n hid hn => by
        obtain ⟨n', hn', ht⟩ := (h.keeps.listed t id).mp hid
        rwa [← Option.some.inj (hn'.symm.trans hn)]
      used := fun _ _ _ => trivial }
  rw [h.keeps.coherent.listed_nodes, hindex.filterMap_get] at hread
  have hparses : (nodes.values.filter fun n => n.nodeType = nodeType).all
      (fun node => AresaDb.Store.parses node.properties) = true := by
    refine List.all_eq_true.mpr fun n hn => ?_
    obtain ⟨id, hid⟩ := (OrdMap.mem_values nodes n).mp (List.mem_of_mem_filter hn)
    exact h.parses id n hid
  rw [if_pos hparses] at hread
  exact hread

/-! ### Writes -/

theorem new (J : Serde) (config : TieredConfig) (hasBucket : Bool) :
    KeepsGraph J (fun _ => False) ∅ ∅ (.new config hasBucket) where
  keeps := keeps_new config hasBucket
  parses id n hn := by
    rw [OrdMap.get_empty] at hn
    cases hn
  rows := rfl
  rowParses i e hi := by
    rw [OrdMap.get_empty] at hi
    cases hi
  tables := ⟨_, .create J _⟩

/-- The edge tables are those of another storage. -/
theorem write {nodes' : OrdMap NodeId Node} (h : KeepsGraph J used nodes edges s)
    (hkeeps : Keeps nodes' s') (hparses : AllParse nodes')
    (hedges : s'.local_.edges = s.local_.edges)
    (hfrom : s'.local_.edgeFromIndex = s.local_.edgeFromIndex)
    (hto : s'.local_.edgeToIndex = s.local_.edgeToIndex)
    (htype : s'.local_.edgeTypeIndex = s.local_.edgeTypeIndex) :
    KeepsGraph J used nodes' edges s' where
  keeps := hkeeps
  parses := hparses
  rows := hedges.trans h.rows
  rowParses := h.rowParses
  tables := by
    obtain ⟨live, htables⟩ := h.tables
    exact ⟨live, htables.of_edges_eq hedges hfrom hto htype⟩

theorem insertNode (h : KeepsGraph J used nodes edges s) (U : Unicode) (node : Node)
    (hfree : nodes[node.id]? = none) (hparses : AresaDb.Store.parses node.properties = true) :
    KeepsGraph J used (nodes.insert node.id (J.node node)) edges (s.insertNode J U node) := by
  have htables : (s.insertNode J U node).local_.edges = s.local_.edges ∧
      (s.insertNode J U node).local_.edgeFromIndex = s.local_.edgeFromIndex ∧
      (s.insertNode J U node).local_.edgeToIndex = s.local_.edgeToIndex ∧
      (s.insertNode J U node).local_.edgeTypeIndex = s.local_.edgeTypeIndex := by
    obtain ⟨m, hm⟩ := LocalStorage.updateFulltextIndex_eq U
      ((s.local_.insertNodeTiered node.id (.fromNode node .local (J.size node.properties))
        (J.props node.properties)).updatePropertyIndexes J node.id node.nodeType node.properties)
      node.id node.nodeType node.properties
    unfold TieredStorage.insertNode TieredStorage.cachePut
    simp only [local_pushThrough, hm]
    exact ⟨rfl, rfl, rfl, rfl⟩
  obtain ⟨hedges, hfrom, hto, htype⟩ := htables
  refine h.write (h.keeps.insertNode hfree) (fun id n hn => ?_) hedges hfrom hto htype
  rw [OrdMap.get_insert] at hn
  split_ifs at hn
  · obtain rfl := Option.some.inj hn
    exact (J.parses_props _).trans hparses
  · exact h.parses id n hn

/-- The node tables of the storage are left alone. -/
theorem keeps_edges (h : Keeps nodes s) {l : LocalStorage}
    (hindex : l.nodeIndexes = s.local_.nodeIndexes) (hrow : l.nodes = s.local_.nodes)
    (hpayload : l.nodePayloads = s.local_.nodePayloads)
    (htypes : l.nodeTypeIndex = s.local_.nodeTypeIndex) : Keeps nodes { s with local_ := l } where
  coherent := h.coherent.of_tables hindex hrow hpayload
  listed nodeType id := by
    rw [htypes]
    exact h.listed nodeType id

theorem insertEdge (h : KeepsGraph J used nodes edges s) (edge : Edge) (hnew : ¬ used edge.id)
    (hparses : edge.parses = true) :
    KeepsGraph J (fun i => used i ∨ i = edge.id) nodes (edges.insert edge.id (J.edge edge))
      (s.insertEdge J edge) where
  keeps := keeps_edges h.keeps rfl rfl rfl rfl
  parses := h.parses
  rows := congrArg (fun rows : OrdMap EdgeId Edge => rows.insert edge.id (J.edge edge)) h.rows
  rowParses i e hi := by
    rw [OrdMap.get_insert] at hi
    split_ifs at hi
    · obtain rfl := Option.some.inj hi
      exact (J.parses_edge edge).trans hparses
    · exact h.rowParses i e hi
  tables := by
    obtain ⟨live, htables⟩ := h.tables
    exact ⟨_, htables.insertEdge hnew⟩

theorem updateNode (h : KeepsGraph J used nodes edges s) {id : NodeId} {n : Node}
    (hn : nodes[id]? = some n) (now : Timestamp) {v : Value}
    (hparses : AresaDb.Store.parses (mergeProps n.properties v) = true) :
    ∃ node s', s.updateNode J now id v = some (node, s') ∧
      KeepsGraph J used (nodes.insert id (J.node (LocalStorage.touchNode now n v))) edges s' := by
  obtain ⟨node, s', hupdate, -, hkeeps⟩ :=
    h.keeps.updateNode_some (J := J) hn now (h.parses id n hn) hparses
  obtain ⟨_, _, _, _, -, -, -, hlocal⟩ := updateNode_inv hupdate
  refine ⟨node, s', hupdate, h.write hkeeps (fun i m hm => ?_) ?_ ?_ ?_ ?_⟩
  · rw [OrdMap.get_insert] at hm
    split_ifs at hm
    · obtain rfl := Option.some.inj hm
      exact (J.parses_props _).trans hparses
    · exact h.parses i m hm
  all_goals
    rw [hlocal]
    rfl

theorem deleteEdge (h : KeepsGraph J used nodes edges s) (id : EdgeId) :
    ∃ s', s.deleteEdge id = some s' ∧ KeepsGraph J used nodes (edges.erase id) s' := by
  have hrow : (s.local_.edges[id]?).all Edge.parses = true := by
    rw [h.rows]
    cases hi : edges[id]? with
    | none => rfl
    | some e => exact h.rowParses id e hi
  refine ⟨{ s with local_ := s.local_.removeEdge id }, ?_, ?_⟩
  · unfold TieredStorage.deleteEdge LocalStorage.deleteEdge
    rw [if_pos hrow]
    rfl
  have htables : (s.local_.removeEdge id).nodeIndexes = s.local_.nodeIndexes ∧
      (s.local_.removeEdge id).nodes = s.local_.nodes ∧
      (s.local_.removeEdge id).nodePayloads = s.local_.nodePayloads ∧
      (s.local_.removeEdge id).nodeTypeIndex = s.local_.nodeTypeIndex := by
    unfold LocalStorage.removeEdge
    split <;> exact ⟨rfl, rfl, rfl, rfl⟩
  obtain ⟨hindex, hrows, hpayload, htypes⟩ := htables
  obtain ⟨live, hlive⟩ := h.tables
  refine ⟨keeps_edges h.keeps hindex hrows hpayload htypes, h.parses, ?_, fun i e hi => ?_, _,
    hlive.removeEdge id⟩
  · rw [← h.rows]
    exact LocalStorage.edges_removeEdge s.local_ id
  · rw [OrdMap.get_erase] at hi
    split_ifs at hi
    exact h.rowParses i e hi

/-- A deleted node takes its edges along. -/
theorem deleteNode (h : KeepsGraph J used nodes edges s) (id : NodeId) :
    ∃ s', s.deleteNode id = some s' ∧
      KeepsGraph J used (nodes.erase id)
        (edges.filter fun _ e => e.from_ ≠ id ∧ e.to_ ≠ id) s' := by
  obtain ⟨s', hdelete, hkeeps⟩ := h.keeps.deleteNode id
  obtain ⟨live, htables⟩ := h.tables
  have hlocal : s'.local_ = (s.dropCopies id).local_.removeNodeTiered id := by
    obtain ⟨l, hl, rfl⟩ := Option.map_eq_some_iff.mp hdelete
    unfold LocalStorage.deleteNodeTiered at hl
    split_ifs at hl
    exact (Option.some.inj hl).symm
  have hleft : EdgesInv J used (fun e₀ => live e₀ ∧ ¬ (e₀.from_ = id ∨ e₀.to_ = id)) s'.local_ := by
    rw [hlocal, LocalStorage.removeNodeTiered]
    refine EdgesInv.deleteEdgesOf ?_ id
    exact htables.of_edges_eq rfl rfl rfl rfl
  refine ⟨s', hdelete, hkeeps, fun id' n' hn' => ?_, ?_, fun i e hi => ?_, _, hleft⟩
  · rw [OrdMap.get_erase] at hn'
    split_ifs at hn'
    exact h.parses id' n' hn'
  · apply OrdMap.ext
    intro i
    refine Option.ext fun e => ?_
    rw [hleft.rows, OrdMap.get_filter, ← h.rows, htables.rows]
    simp only [ne_eq, Bool.decide_and, decide_not, Bool.and_eq_true, Bool.not_eq_eq_eq_not,
      Bool.not_true, decide_eq_false_iff_not]
    constructor
    · rintro ⟨e₀, ⟨hlive, hends⟩, hid, rfl⟩
      exact ⟨⟨e₀, hlive, hid, rfl⟩, not_or.mp hends⟩
    · rintro ⟨⟨e₀, hlive, hid, rfl⟩, hends⟩
      exact ⟨e₀, ⟨hlive, not_or.mpr hends⟩, hid, rfl⟩
  · exact h.rowParses i e ((OrdMap.get_filter edges _ i e).mp hi).1

end KeepsGraph

end

/-! ### Runs -/

/-- A write of the graph. -/
inductive GraphWrite where
  | insertNode (node : Node)
  | updateNode (now : Timestamp) (id : NodeId) (properties : Value)
  | deleteNode (id : NodeId)
  | insertEdge (edge : Edge)
  | deleteEdge (id : EdgeId)

/-- A storage beside the graph that the writes so far have made; `used` are the ids that edges have
had. -/
structure TrackedGraph where
  used : EdgeId → Prop
  nodes : OrdMap NodeId Node
  edges : OrdMap EdgeId Edge
  store : TieredStorage

namespace TrackedGraph

/-- The storage and the graph it is to keep take the same write; one that fails leaves the storage.
-/
def step (J : Serde) (U : Unicode) (g : TrackedGraph) : GraphWrite → TrackedGraph
  | .insertNode node =>
      { g with
        nodes := g.nodes.insert node.id (J.node node)
        store := g.store.insertNode J U node }
  | .updateNode now id properties =>
      { g with
        nodes := match g.nodes[id]? with
          | some n => g.nodes.insert id (J.node (LocalStorage.touchNode now n properties))
          | none => g.nodes
        store := ((g.store.updateNode J now id properties).map Prod.snd).getD g.store }
  | .deleteNode id =>
      { g with
        nodes := g.nodes.erase id
        edges := g.edges.filter fun _ e => e.from_ ≠ id ∧ e.to_ ≠ id
        store := (g.store.deleteNode id).getD (g.store.dropCopies id) }
  | .insertEdge edge =>
      { used := fun i => g.used i ∨ i = edge.id
        nodes := g.nodes
        edges := g.edges.insert edge.id (J.edge edge)
        store := g.store.insertEdge J edge }
  | .deleteEdge id =>
      { g with edges := g.edges.erase id, store := (g.store.deleteEdge id).getD g.store }

/-- Insertions come under new ids, and what is written can be read. -/
def Admits (g : TrackedGraph) : GraphWrite → Prop
  | .insertNode node => g.nodes[node.id]? = none ∧ parses node.properties = true
  | .updateNode _ id properties => ∀ n, g.nodes[id]? = some n →
      parses (mergeProps n.properties properties) = true
  | .insertEdge edge => ¬ g.used edge.id ∧ edge.parses = true
  | _ => True

/-- The storage keeps the graph. -/
def Kept (J : Serde) (g : TrackedGraph) : Prop := KeepsGraph J g.used g.nodes g.edges g.store

theorem Kept.step {g : TrackedGraph} (h : g.Kept J) {w : GraphWrite} (hw : g.Admits w) :
    (g.step J U w).Kept J := by
  cases w with
  | insertNode node => exact h.insertNode U node hw.1 hw.2
  | updateNode now id properties =>
      show KeepsGraph J _ _ _ _
      unfold TrackedGraph.step
      cases hn : g.nodes[id]? with
      | none =>
          have hnone : g.store.updateNode J now id properties = none := by
            have hid := h.keeps.coherent id
            rw [hn] at hid
            unfold TieredStorage.updateNode
            rw [TieredStorage.getNodeIndex_eq,
              show g.store.copies id = ⟨none, none, none, none, none⟩ from hid]
            rfl
          simp only [hn, hnone]
          exact h
      | some n =>
          obtain ⟨node, s', hupdate, hs'⟩ := KeepsGraph.updateNode h hn now (hw n hn)
          simp only [hn, hupdate]
          exact hs'
  | deleteNode id =>
      obtain ⟨s', hdelete, hs'⟩ := KeepsGraph.deleteNode h id
      show KeepsGraph J _ _ _ ((g.store.deleteNode id).getD _)
      rw [hdelete]
      exact hs'
  | insertEdge edge => exact h.insertEdge edge hw.1 hw.2
  | deleteEdge id =>
      obtain ⟨s', hdelete, hs'⟩ := KeepsGraph.deleteEdge h id
      show KeepsGraph J _ _ _ ((g.store.deleteEdge id).getD _)
      rw [hdelete]
      exact hs'

end TrackedGraph

/-- **Graphs are kept**: whatever is written to a new storage under new ids, and can be read, is the
graph that the storage keeps. -/
theorem keepsGraph_run (J : Serde) (U : Unicode) (config : TieredConfig) (hasBucket : Bool)
    (writes : List GraphWrite)
    (h : Run.Along (TrackedGraph.step J U) TrackedGraph.Admits
      ⟨fun _ => False, ∅, ∅, .new config hasBucket⟩ writes) :
    (Run.run (TrackedGraph.step J U) ⟨fun _ => False, ∅, ∅, .new config hasBucket⟩ writes).Kept J :=
  h.invariant (fun _ _ hg hw => hg.step hw) (.new J config hasBucket)

/-! ### A small graph -/

def sampleUser (id : BitVec 128) : Node := ⟨⟨id⟩, "user", ∅, 0, 0⟩

def sampleKnows (id source target : BitVec 128) : Edge := ⟨⟨id⟩, ⟨source⟩, ⟨target⟩, "knows", ∅, 0⟩

def sampleUsers : OrdMap NodeId Node := ((∅ : OrdMap NodeId Node).insert ⟨1⟩ (sampleUser 1)).insert
  ⟨2⟩ (sampleUser 2)

/-- The two users know each other, and the second an id without a node. -/
def sampleEdges : OrdMap EdgeId Edge := (((∅ : OrdMap EdgeId Edge).insert ⟨1⟩
  (sampleKnows 1 1 2)).insert ⟨2⟩ (sampleKnows 2 2 1)).insert ⟨3⟩ (sampleKnows 3 2 3)

def sampleUsed (i : EdgeId) : Prop := ((False ∨ i = ⟨1⟩) ∨ i = ⟨2⟩) ∨ i = ⟨3⟩

def sampleNetwork : TieredStorage :=
  (((((TieredStorage.new ⟨1000, 0, false⟩ false).insertNode plainJson asciiUnicode
    (sampleUser 1)).insertNode plainJson asciiUnicode (sampleUser 2)).insertEdge plainJson
    (sampleKnows 1 1 2)).insertEdge plainJson (sampleKnows 2 2 1)).insertEdge plainJson
    (sampleKnows 3 2 3)

theorem keepsGraph_sampleNetwork :
    KeepsGraph plainJson sampleUsed sampleUsers sampleEdges sampleNetwork := by
  refine keepsGraph_run plainJson asciiUnicode ⟨1000, 0, false⟩ false
    [.insertNode (sampleUser 1), .insertNode (sampleUser 2), .insertEdge (sampleKnows 1 1 2),
      .insertEdge (sampleKnows 2 2 1), .insertEdge (sampleKnows 3 2 3)] ?_
  refine ⟨⟨rfl, rfl⟩, ⟨rfl, rfl⟩, ⟨not_false, rfl⟩, ⟨?_, rfl⟩, ⟨?_, rfl⟩, trivial⟩
  · simp [TrackedGraph.step, sampleKnows]
  · simp [TrackedGraph.step, sampleKnows]

end AresaDb.Store
