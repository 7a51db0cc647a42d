import AresaDb.Store.IdText
import AresaDb.Store.Json
import AresaDb.Store.IndexRuns

/-! # Nodes of the database

The node operations of `Database` (`storage/mod.rs`): JSON documents become values and are handed
to the tiered storage, and ids are parsed.

A storage keeps nodes when it holds them and lists each of them under its type and nothing else
(`Keeps`). -/

namespace AresaDb.Store

/-- `Node::new`, with the id and the time that it draws. -/
def Node.new (id : NodeId) (now : Timestamp) (nodeType : String) (properties : Value) : Node where
  id := id
  nodeType := nodeType
  properties := match properties with
    | .object _ => mergeProps ∅ properties
    | _ => (∅ : Props).insert "value" properties
  createdAt := now
  updatedAt := now

namespace Database

variable (F : JsonFormat) (U : Unicode) (s : TieredStorage)

def insertNode (id : NodeId) (now : Timestamp) (nodeType : String) (properties : Json) :
    Option TieredStorage :=
  (Value.fromJson F properties).map fun props => s.insertNode F.serde U (.new id now nodeType props)

def updateNode (now : Timestamp) (id : NodeId) (properties : Json) : Option TieredStorage := do
  let props ← Value.fromJson F properties
  let (_, s') ← s.updateNode F.serde now id props
  return s'

def deleteNode (id : NodeId) : Option TieredStorage := s.deleteNode id

variable (T : UuidText)

/-- The node, if there is one, and the storage after the read; `none` is the error of an id that is
none or of a row or payload that does not parse. -/
def getNode (id : String) : Option (Option Node × TieredStorage) := do
  let nodeId ← NodeId.parse T id
  s.getNode F.serde nodeId

def getEdgesFrom (nodeId : String) (edgeType : Option String) : Option (List Edge) := do
  let id ← NodeId.parse T nodeId
  s.local_.getEdgesFrom id edgeType

def getEdgesTo (nodeId : String) (edgeType : Option String) : Option (List Edge) := do
  let id ← NodeId.parse T nodeId
  s.local_.getEdgesTo id edgeType

/-- The nodes of a type, and the storage after the read. -/
def getAllByType (nodeType : String) (limit : Option ℕ) : Option (List Node × TieredStorage) :=
  s.getNodesByType F.serde nodeType limit

end Database

/-- The storage holds the nodes, and lists them under their types. -/
structure Keeps (nodes : OrdMap NodeId Node) (s : TieredStorage) : Prop where
  coherent : Coherent nodes s
  listed : ∀ (nodeType : String) (id : NodeId), (nodeType, id) ∈ s.local_.nodeTypeIndex ↔
    ∃ n, nodes[id]? = some n ∧ n.nodeType = nodeType

section

variable {F : JsonFormat} {J : Serde} {U : Unicode} {nodes : OrdMap NodeId Node}
  {s s' : TieredStorage} {id : NodeId} {n : Node}

theorem keeps_new (config : TieredConfig) (hasBucket : Bool) : Keeps ∅ (.new config hasBucket) where
  coherent := coherent_new config hasBucket
  listed nodeType id := by
    have hnone : (∅ : OrdMap NodeId Node)[id]? = none := OrdMap.get_empty id
    rw [hnone]
    exact iff_of_false (Multimap.not_mem_empty _) (by simp)

/-- Nothing but the cache has changed. -/
theorem Keeps.read (h : Keeps nodes s) (hlocal : s'.local_ = s.local_) (hs' : Coherent nodes s') :
    Keeps nodes s' where
  coherent := hs'
  listed nodeType id := by
    rw [hlocal]
    exact h.listed nodeType id

theorem Keeps.loseCache (h : Keeps nodes s) (ids : List NodeId) :
    Keeps nodes { s with cache := s.cache.eraseAll ids } := h.read rfl (h.coherent.loseCache ids)

theorem typeIndex_insertNode (s : TieredStorage) (node : Node) :
    (s.insertNode J U node).local_.nodeTypeIndex =
      s.local_.nodeTypeIndex.insert node.nodeType node.id := by
  unfold TieredStorage.insertNode TieredStorage.cachePut
  simp only [local_pushThrough]
  obtain ⟨m, hm⟩ := LocalStorage.updateFulltextIndex_eq U
    ((s.local_.insertNodeTiered node.id (.fromNode node .local (J.size node.properties))
      (J.props node.properties)).updatePropertyIndexes J node.id node.nodeType node.properties)
    node.id node.nodeType node.properties
  rw [hm]
  rfl

theorem typeIndex_updateNode {now : Timestamp} {id : NodeId} {v : Value} {node : Node}
    (h : s.updateNode J now id v = some (node, s')) :
    s'.local_.nodeTypeIndex = s.local_.nodeTypeIndex := by
  obtain ⟨_, _, _, _, -, -, -, hlocal⟩ := updateNode_inv h
  rw [hlocal]
  rfl

theorem typeIndex_deleteNode (h : s.deleteNode id = some s') :
    s'.local_.nodeTypeIndex = match s.local_.typeOf id with
      | some nodeType => s.local_.nodeTypeIndex.remove nodeType id
      | none => s.local_.nodeTypeIndex := by
  obtain ⟨l, hdelete, rfl⟩ := Option.map_eq_some_iff.mp h
  unfold LocalStorage.deleteNodeTiered at hdelete
  split_ifs at hdelete
  obtain rfl := Option.some.inj hdelete
  simp only [LocalStorage.removeNodeTiered, LocalStorage.deleteEdgesOf_eq]
  rfl

/-- The type under which a node is listed is its own. -/
theorem Keeps.typeOf (h : Keeps nodes s) (id : NodeId) :
    s.local_.typeOf id = nodes[id]?.map Node.nodeType := by
  have hid := h.coherent id
  unfold LocalStorage.typeOf
  cases hn : nodes[id]? with
  | none =>
      rw [hn] at hid
      have hcopies : s.copies id = ⟨none, none, none, none, none⟩ := hid
      rw [show s.local_.nodeIndexes[id]? = none from congrArg Copies.index hcopies,
        show s.local_.nodes[id]? = none from congrArg Copies.row hcopies, Option.map_none]
  | some n =>
      rw [hn] at hid
      obtain ⟨index, hholds⟩ := hid
      have hrecord : index.nodeType = n.nodeType := congrArg Node.nodeType hholds.record
      rw [show s.local_.nodeIndexes[id]? = some index from hholds.indexed, Option.map_some,
        ← hrecord]

theorem Keeps.insertNode (h : Keeps nodes s) {node : Node} (hfree : nodes[node.id]? = none) :
    Keeps (nodes.insert node.id (J.node node)) (s.insertNode J U node) where
  coherent := h.coherent.insertNode node
  listed nodeType id := by
    rw [typeIndex_insertNode, Multimap.mem_insert, h.listed, OrdMap.get_insert]
    by_cases hid : node.id = id
    · subst hid
      simp [hfree, eq_comm]
    · simp [hid, Ne.symm hid]

/-- An update of a node whose old and new payloads parse. -/
theorem Keeps.updateNode_some (h : Keeps nodes s) (hn : nodes[id]? = some n) (now : Timestamp)
    {v : Value} (hold : parses n.properties = true)
    (hnew : parses (mergeProps n.properties v) = true) :
    ∃ node s', s.updateNode J now id v = some (node, s') ∧
      node.properties = mergeProps n.properties v ∧
      Keeps (nodes.insert id (J.node (LocalStorage.touchNode now n v))) s' := by
  obtain ⟨node, s', hupdate, hprops, hs'⟩ := h.coherent.updateNode_some (J := J) hn now v
  rw [hold, hnew, if_pos (by rfl)] at hupdate
  refine ⟨node, s', hupdate, hprops, hs', fun nodeType i => ?_⟩
  rw [typeIndex_updateNode hupdate, h.listed, OrdMap.get_insert]
  by_cases hi : id = i
  · subst hi
    simp [hn, LocalStorage.touchNode]
  · simp [hi]

/-- An update that would have to parse what does not. -/
theorem Keeps.updateNode_none (h : Keeps nodes s) (hn : nodes[id]? = some n) (now : Timestamp)
    {v : Value} (hdeep : ¬ (parses n.properties && parses (mergeProps n.properties v)) = true) :
    s.updateNode J now id v = none := by
  obtain ⟨node, s', hupdate, -⟩ := h.coherent.updateNode_some (J := J) hn now v
  rwa [if_neg hdeep] at hupdate

theorem Keeps.deleteNode (h : Keeps nodes s) (id : NodeId) :
    ∃ s', s.deleteNode id = some s' ∧ Keeps (nodes.erase id) s' := by
  obtain ⟨s', hdelete, hs'⟩ := h.coherent.deleteNode id
  refine ⟨s', hdelete, hs', fun nodeType i => ?_⟩
  rw [typeIndex_deleteNode hdelete, h.typeOf, OrdMap.get_erase]
  by_cases hi : id = i
  · subst hi
    cases hn : nodes[id]? with
    | none => simp [h.listed, hn]
    | some n =>
        simp only [Option.map_some, Multimap.mem_remove, h.listed, hn]
        simp
        exact fun h1 h2 => h1 h2.symm
  · rw [if_neg hi, ← h.listed]
    cases nodes[id]?.map Node.nodeType with
    | none => exact Iff.rfl
    | some t =>
        rw [Multimap.mem_remove]
        exact and_iff_right fun heq => hi (congrArg Prod.snd heq).symm

/-- A read of a type fails exactly when some payload does not parse. -/
theorem Keeps.getAllByType_eq (h : Keeps nodes s) (nodeType : String) (limit : Option ℕ) :
    ∃ l s', Database.getAllByType F s nodeType limit =
        (if l.all (fun node => parses node.properties) then some (l, s') else none) ∧
      Keeps nodes s' ∧ (∀ n ∈ l, ∃ id : NodeId, nodes[id]? = some n) ∧
      (limit = none → l =
        (s.local_.nodeTypeIndex.get nodeType).filterMap fun id => nodes[id]?) := by
  obtain ⟨s', hread, hlocal, hs'⟩ := h.coherent.getNodesByType (J := F.serde) nodeType limit
  refine ⟨scanned F.serde nodes s nodeType limit, s', hread, h.read hlocal hs', ?_, ?_⟩
  · intro n hn
    obtain ⟨e, -, hn⟩ := List.mem_filterMap.mp hn
    exact ⟨e.1, hn⟩
  · rintro rfl
    exact h.coherent.listed_nodes nodeType

/-- The nodes that are listed under a type. -/
theorem Keeps.mem_listed (h : Keeps nodes s) {nodeType : String} {n : Node} :
    n ∈ (s.local_.nodeTypeIndex.get nodeType).filterMap (fun id => nodes[id]?) ↔
      nodes[n.id]? = some n ∧ n.nodeType = nodeType := by
  rw [List.mem_filterMap]
  constructor
  · rintro ⟨id, hid, hn⟩
    obtain ⟨n', hn', htype⟩ := (h.listed nodeType id).mp (Multimap.mem_get.mp hid)
    obtain rfl := Option.some.inj (hn.symm.trans hn')
    obtain rfl := h.coherent.node_id hn
    exact ⟨hn, htype⟩
  · rintro ⟨hn, htype⟩
    exact ⟨n.id, Multimap.mem_get.mpr ((h.listed nodeType n.id).mpr ⟨n, hn, htype⟩), hn⟩

/-- Each of them is listed once. -/
theorem Keeps.nodup_listed (h : Keeps nodes s) (nodeType : String) :
    (((s.local_.nodeTypeIndex.get nodeType).filterMap fun id => nodes[id]?).map
      Node.id).Nodup := by
  rw [List.map_filterMap, List.Nodup, List.pairwise_filterMap]
  refine (Multimap.get_nodup _ _).imp fun {a b} hab i hi j hj hij => hab ?_
  obtain ⟨n, hn, rfl⟩ := Option.map_eq_some_iff.mp hi
  obtain ⟨m, hm, rfl⟩ := Option.map_eq_some_iff.mp hj
  exact (h.coherent.node_id hn).symm.trans (hij.trans (h.coherent.node_id hm))

end

end AresaDb.Store
