import AresaDb.Lib.Run
import AresaDb.Store.Copies

/-! # Tiering is invisible, stale copies aside

What a storage must satisfy is said node by node: the cache agrees with the node, and so does the
copy the index record points to (`Agrees`).  The other copies may be stale, and two operations
trust one that may be: promoting a node whose payload is local takes the object in the bucket for
it, and evicting a node that is in the cloud already takes its older row (`PromoteSafe`,
`EvictSafe`).  Where they find no stale copy, and the payloads that are inserted parse, a read
returns what the insertions and updates alone have made of the node (`getNode_eq_contents`). -/

namespace AresaDb.Store

/-! ### Operations -/

/-- An operation of the tiered storage, the loss of cache entries among them. -/
inductive StoreOp where
  | insertNode (node : Node)
  | insertNodesBatch (nodes : List Node)
  | updateNode (now : Timestamp) (id : NodeId) (newProperties : Value)
  | deleteNode (id : NodeId)
  | getNode (id : NodeId)
  | evictToCloud (id : NodeId)
  | promoteToLocal (id : NodeId)
  | runEviction (fileBytes : ℕ)
  | loseCache (ids : List NodeId)
  | createIndex (nodeType field : String)
  | dropIndex (nodeType field : String)
  | createFulltextIndex (nodeType field : String)

namespace StoreOp

/-- The storage after an operation; one that fails leaves it as it is. -/
def run (J : Serde) (U : Unicode) (s : TieredStorage) : StoreOp → TieredStorage
  | insertNode node => s.insertNode J U node
  | insertNodesBatch nodes => s.insertNodesBatch J nodes
  | updateNode now id newProperties =>
      ((s.updateNode J now id newProperties).map Prod.snd).getD s
  | deleteNode id => (s.deleteNode id).getD (s.dropCopies id)
  | getNode id => ((s.getNode J id).map Prod.snd).getD s
  | evictToCloud id => (s.evictToCloud J id).getD s
  | promoteToLocal id => (s.promoteToLocal J id).getD s
  | runEviction fileBytes => (s.runEviction J fileBytes).2
  | loseCache ids => { s with cache := s.cache.eraseAll ids }
  | createIndex nodeType field => (s.createIndex J nodeType field).getD s
  | dropIndex nodeType field => s.dropIndex nodeType field
  | createFulltextIndex nodeType field => (s.createFulltextIndex U nodeType field).getD s

/-- What an operation makes of the nodes, by insertions, updates and deletions alone.  An update
fails on a payload that does not parse, be it the old or the new one. -/
def effect (J : Serde) (nodes : OrdMap NodeId Node) : StoreOp → OrdMap NodeId Node
  | insertNode node => nodes.insert node.id (J.node node)
  | insertNodesBatch batch => batch.foldl (fun nodes node => nodes.insert node.id (J.node node))
    nodes
  | updateNode now id newProperties =>
      match nodes[id]? with
      | some node =>
          if parses node.properties && parses (mergeProps node.properties newProperties) then
            nodes.insert id (J.node (LocalStorage.touchNode now node newProperties))
          else nodes
      | none => nodes
  | deleteNode id => nodes.erase id
  | _ => nodes

end StoreOp

/-- A storage beside the nodes that the operations so far have made. -/
structure Tracked where
  nodes : OrdMap NodeId Node
  store : TieredStorage

namespace Tracked

def step (J : Serde) (U : Unicode) (t : Tracked) (op : StoreOp) : Tracked :=
  ⟨op.effect J t.nodes, op.run J U t.store⟩

/-- A new database. -/
def new (config : TieredConfig) (hasBucket : Bool) : Tracked := ⟨∅, .new config hasBucket⟩

/-- What is reached from a new database. -/
def reached (J : Serde) (U : Unicode) (config : TieredConfig) (hasBucket : Bool)
    (ops : List StoreOp) : Tracked :=
  Run.run (step J U) (new config hasBucket) ops

end Tracked

/-! ### Agreement -/

/-- The copies stand for the node: the cache agrees with it, and so does the copy that the index
record points to. -/
structure Holds (id : NodeId) (n : Node) (c : Copies) (index : NodeIndex) : Prop where
  indexed : c.index = some index
  record : index.toNode id n.properties = n
  cached : ∀ p, c.cached = some p → p = n.properties
  placed_local : index.payloadLocation = .local → c.payload = some n.properties
  placed_cloud : index.payloadLocation = .cloud →
    c.payload = none ∧ c.object = some n.properties

/-- The copies stand for the node that there is, and there are none of one that is gone. -/
def Agrees (id : NodeId) (node : Option Node) (c : Copies) : Prop :=
  match node with
  | some n => ∃ index, Holds id n c index
  | none => c = ⟨none, none, none, none, none⟩

/-- Every payload parses. -/
def AllParse (nodes : OrdMap NodeId Node) : Prop :=
  ∀ (id : NodeId) (n : Node), nodes[id]? = some n → parses n.properties = true

/-- Every node is there in agreeing copies. -/
def Coherent (nodes : OrdMap NodeId Node) (s : TieredStorage) : Prop :=
  ∀ id : NodeId, Agrees id nodes[id]? (s.copies id)

/-- A node in the cloud has no older row left, or one that agrees with the object. -/
def EvictSafe (J : Serde) (c : Copies) : Prop :=
  ∀ index, c.index = some index → index.payloadLocation = .cloud →
    ∀ p, c.getPayload J = some p → c.object = some p

/-- A local node has no object in the bucket, or one that agrees with the payload. -/
def PromoteSafe (J : Serde) (c : Copies) : Prop :=
  ∀ index, c.index = some index → index.payloadLocation = .local →
    ∀ p, c.object = some p → c.getPayload J = some p

section

variable {J : Serde} {id : NodeId} {n : Node} {c : Copies} {index : NodeIndex}

theorem Holds.getNodeIndex (h : Holds id n c index) : c.getNodeIndex J = some (some index) := by
  unfold Copies.getNodeIndex
  rw [h.indexed]

/-- A read finds the node. -/
theorem Holds.find (h : Holds id n c index) : c.find J index = some n.properties := by
  unfold Copies.find Copies.getPayload
  cases hc : c.cached with
  | some p => rw [h.cached p hc]
  | none =>
      cases hloc : index.payloadLocation with
      | «local» => simp only [h.placed_local hloc]
      | cloud => exact (h.placed_cloud hloc).2

/-- A copy of the node in the cache keeps the agreement. -/
theorem Holds.cache (h : Holds id n c index) :
    Holds id n { c with cached := some n.properties } index :=
  ⟨h.indexed, h.record, fun _ hp => (Option.some.inj hp).symm, h.placed_local, h.placed_cloud⟩

/-- Without a cached copy the agreement stands. -/
theorem Agrees.uncache {node : Option Node} (h : Agrees id node c) :
    Agrees id node { c with cached := none } := by
  cases node with
  | none =>
      obtain rfl : c = ⟨none, none, none, none, none⟩ := h
      rfl
  | some n =>
      obtain ⟨index, h⟩ := h
      exact ⟨index, h.indexed, h.record, fun p hp => by (cases hp), h.placed_local, h.placed_cloud⟩

/-- The copies an insertion leaves. -/
theorem holds_insert (J : Serde) (node : Node) (row : Option Node) (object : Option Props) :
    Holds node.id (J.node node)
      ⟨some (.fromNode node .local (J.size node.properties)), row, some (J.props node.properties),
        some (J.props node.properties), object⟩
      (.fromNode node .local (J.size node.properties)) where
  indexed := rfl
  record := rfl
  cached _ hp := (Option.some.inj hp).symm
  placed_local _ := rfl
  placed_cloud h := by cases h

/-- The copies an update leaves. -/
theorem Holds.update (h : Holds id n c index) (now : Timestamp) (v : Value) (row : Option Node)
    (object : Option Props) :
    Holds id (J.node (LocalStorage.touchNode now n v))
      ⟨some (TieredStorage.updatedIndex J now index (mergeProps n.properties v)), row,
        some (J.props (mergeProps n.properties v)), some (J.props (mergeProps n.properties v)),
        object⟩
      (TieredStorage.updatedIndex J now index (mergeProps n.properties v)) where
  indexed := rfl
  record := by
    rw [← h.record]
    rfl
  cached _ hp := (Option.some.inj hp).symm
  placed_local _ := rfl
  placed_cloud h := by cases h

/-- The copies a safe eviction leaves. -/
theorem Holds.evict (h : Holds id n c index) (hsafe : EvictSafe J c) {p : Props}
    (hp : c.getPayload J = some p) :
    Holds id n
      ⟨some { index with payloadLocation := .cloud }, c.row, none, some p, some p⟩
      { index with payloadLocation := .cloud } := by
  have hpn : p = n.properties := by
    cases hloc : index.payloadLocation with
    | «local» =>
        unfold Copies.getPayload at hp
        rw [h.placed_local hloc] at hp
        exact (Option.some.inj hp).symm
    | cloud =>
        have hobject := hsafe index h.indexed hloc p hp
        rw [(h.placed_cloud hloc).2] at hobject
        exact (Option.some.inj hobject).symm
  subst hpn
  exact ⟨rfl, h.record, fun _ hp => (Option.some.inj hp).symm, fun hloc => by (cases hloc),
    fun _ => ⟨rfl, rfl⟩⟩

/-- The copies a safe promotion leaves. -/
theorem Holds.promote (h : Holds id n c index) (hsafe : PromoteSafe J c) {p : Props}
    (hp : c.object = some p) :
    Holds id n
      { c with index := some { index with payloadLocation := .local }, payload := some p }
      { index with payloadLocation := .local } := by
  have hpn : p = n.properties := by
    cases hloc : index.payloadLocation with
    | «local» =>
        have hpayload := hsafe index h.indexed hloc p hp
        unfold Copies.getPayload at hpayload
        rw [h.placed_local hloc] at hpayload
        exact (Option.some.inj hpayload).symm
    | cloud =>
        rw [(h.placed_cloud hloc).2] at hp
        exact (Option.some.inj hp).symm
  subst hpn
  exact ⟨rfl, h.record, h.cached, fun _ => rfl, fun hloc => by (cases hloc)⟩

end

/-! ### One operation -/

section

variable {J : Serde} {U : Unicode} {nodes : OrdMap NodeId Node} {s : TieredStorage}

theorem coherent_new (config : TieredConfig) (hasBucket : Bool) :
    Coherent ∅ (.new config hasBucket) := by
  intro id
  have hnone : (∅ : OrdMap NodeId Node)[id]? = none := OrdMap.get_empty id
  rw [hnone]
  cases hasBucket <;>
    simp [Agrees, TieredStorage.copies, TieredStorage.new, LocalStorage.create,
      TieredStorage.fetchCloudPayload]

/-- The copies of one node change, and the node with them. -/
theorem Coherent.change (h : Coherent nodes s) {s' : TieredStorage} {nodes' : OrdMap NodeId Node}
    {id : NodeId} {c : Copies} (hc : Changes s s' id c) (hid : Agrees id nodes'[id]? c)
    (hoff : ∀ id' : NodeId, id ≠ id' → nodes'[id']? = nodes[id']?) : Coherent nodes' s' := by
  intro id'
  by_cases hne : id = id'
  · subst hne
    rw [hc.at_id]
    exact hid
  · rw [hc.off_id id' hne, hoff id' hne]
    exact h id'

theorem Coherent.change_same (h : Coherent nodes s) {s' : TieredStorage} {id : NodeId} {c : Copies}
    (hc : Changes s s' id c) (hid : Agrees id nodes[id]? c) : Coherent nodes s' :=
  h.change hc hid fun _ _ => rfl

theorem Coherent.insertNode (h : Coherent nodes s) (node : Node) :
    Coherent (nodes.insert node.id (J.node node)) (s.insertNode J U node) := by
  refine h.change (s.changes_insertNode J U node) ?_ fun id' hne => OrdMap.get_insert_of_ne _ _ hne
  rw [OrdMap.get_insert_self]
  exact ⟨_, holds_insert J node _ _⟩

/-- A node of a batch: without index maintenance and without the bucket. -/
def insertBatched (J : Serde) (s : TieredStorage) (node : Node) : TieredStorage :=
  { s with
    local_ := s.local_.insertNodeTiered node.id
      (.fromNode node .local (J.size node.properties)) (J.props node.properties)
    cache := s.cache.insert node.id (J.props node.properties) }

theorem insertNodesBatch_cons (node : Node) (batch : List Node) :
    s.insertNodesBatch J (node :: batch) = (insertBatched J s node).insertNodesBatch J batch := rfl

theorem changes_insertBatched (node : Node) :
    Changes s (insertBatched J s node) node.id
      { s.copies node.id with
        index := some (.fromNode node .local (J.size node.properties))
        payload := some (J.props node.properties)
        cached := some (J.props node.properties) } := by
  have hoff : TieredStorage.LocalOff node.id s.local_ (s.local_.insertNodeTiered node.id
      (.fromNode node .local (J.size node.properties)) (J.props node.properties)) :=
    fun i hne => ⟨OrdMap.get_insert_of_ne _ _ hne, rfl, OrdMap.get_insert_of_ne _ _ hne⟩
  have hlocal := s.changes_local node.id hoff
  have hcache := TieredStorage.changes_cachePut { s with
    local_ := s.local_.insertNodeTiered node.id
      (.fromNode node .local (J.size node.properties)) (J.props node.properties) } node.id
    (J.props node.properties)
  rw [hlocal.at_id] at hcache
  have hall := hlocal.trans hcache
  simp only [LocalStorage.insertNodeTiered, OrdMap.get_insert_self] at hall
  exact hall

theorem Coherent.insertNodesBatch (h : Coherent nodes s) (batch : List Node) :
    Coherent (batch.foldl (fun nodes node => nodes.insert node.id (J.node node)) nodes)
      (s.insertNodesBatch J batch) := by
  induction batch generalizing nodes s with
  | nil => exact h
  | cons node batch ih =>
      rw [List.foldl_cons, insertNodesBatch_cons]
      refine ih (h.change (changes_insertBatched node) ?_ fun id' hne =>
        OrdMap.get_insert_of_ne _ _ hne)
      rw [OrdMap.get_insert_self]
      exact ⟨_, holds_insert J node _ _⟩

/-- Where there is no index record there is no row to stand for one. -/
theorem Coherent.getNodeIndex (h : Coherent nodes s) (id : NodeId) :
    ∃ index, (s.copies id).getNodeIndex J = some index := by
  have hid := h id
  cases hn : nodes[id]? with
  | none =>
      rw [hn] at hid
      rw [show s.copies id = ⟨none, none, none, none, none⟩ from hid]
      exact ⟨none, rfl⟩
  | some n =>
      rw [hn] at hid
      obtain ⟨index, hholds⟩ := hid
      exact ⟨some index, hholds.getNodeIndex⟩

theorem Coherent.recordParses (h : Coherent nodes s) (id : NodeId) :
    s.local_.recordParses id = true := by
  obtain ⟨index, hindex⟩ := h.getNodeIndex (J := plainJson) id
  unfold LocalStorage.recordParses
  cases hi : s.local_.nodeIndexes[id]? with
  | some index => rfl
  | none =>
      unfold Copies.getNodeIndex TieredStorage.copies at hindex
      rw [hi] at hindex
      obtain ⟨row, hrow, -⟩ := Option.map_eq_some_iff.mp hindex
      exact (readRow_eq_some hrow).1

theorem Coherent.deleteNode (h : Coherent nodes s) (id : NodeId) :
    ∃ s', s.deleteNode id = some s' ∧ Coherent (nodes.erase id) s' := by
  obtain ⟨s', hdelete, hchanges⟩ := s.deleteNode_eq id
  refine ⟨s', hdelete.trans (if_pos (h.recordParses id)), h.change hchanges ?_ fun id' hne =>
    OrdMap.get_erase_of_ne _ hne⟩
  rw [OrdMap.get_erase_self]
  rfl

/-- A read of a node returns it, if its payload parses. -/
theorem Coherent.getNode (h : Coherent nodes s) (id : NodeId) :
    ∃ s', s.getNode J id =
        (if (nodes[id]?).all (fun n => parses n.properties) then some (nodes[id]?, s') else none) ∧
      s'.local_ = s.local_ ∧ Coherent nodes s' := by
  have hid := h id
  unfold TieredStorage.getNode
  rw [TieredStorage.getNodeIndex_eq]
  cases hn : nodes[id]? with
  | none =>
      rw [hn] at hid
      rw [show s.copies id = ⟨none, none, none, none, none⟩ from hid]
      exact ⟨s, rfl, rfl, h⟩
  | some n =>
      rw [hn] at hid
      obtain ⟨index, hholds⟩ := hid
      obtain ⟨s', hres, hlocal, hchanges⟩ := s.resolvePayload_find J id _ (hholds.find (J := J))
      refine ⟨s', ?_, hlocal, h.change_same hchanges ?_⟩
      · simp only [hholds.getNodeIndex, Option.bind_eq_bind, Option.bind_some, hres,
          Option.all_some]
        split_ifs
        · rw [Option.bind_some, hholds.record]
          rfl
        · rfl
      · rw [hn]
        exact ⟨index, hholds.cache⟩

/-- Index records are resolved to their nodes. -/
theorem Coherent.resolveAll (h : Coherent nodes s) {entries : List (NodeId × NodeIndex)}
    (hentries : ∀ e ∈ entries, s.local_.recordOf J e.1 = some e.2) :
    ∃ s', s.resolveAll J entries =
        (if (entries.filterMap fun e => nodes[e.1]?).all (fun n => parses n.properties) then
          some (entries.filterMap fun e => nodes[e.1]?, s') else none) ∧
      s'.local_ = s.local_ ∧ Coherent nodes s' := by
  induction entries generalizing s with
  | nil => exact ⟨s, rfl, rfl, h⟩
  | cons e rest ih =>
      obtain ⟨id, index⟩ := e
      obtain ⟨hindex, hrest⟩ := List.forall_mem_cons.mp hentries
      have hid := h id
      cases hn : nodes[id]? with
      | none =>
          rw [hn] at hid
          have hcopies : s.copies id = ⟨none, none, none, none, none⟩ := hid
          unfold LocalStorage.recordOf at hindex
          rw [show s.local_.nodeIndexes[id]? = none from congrArg Copies.index hcopies,
            show s.local_.nodes[id]? = none from congrArg Copies.row hcopies] at hindex
          cases hindex
      | some n =>
          rw [hn] at hid
          obtain ⟨index', hholds⟩ := hid
          unfold LocalStorage.recordOf at hindex
          rw [show s.local_.nodeIndexes[id]? = some index' from hholds.indexed] at hindex
          obtain rfl := Option.some.inj hindex
          obtain ⟨s₁, hread, hlocal, hchanges⟩ :=
            s.resolvePayload_find J id _ (hholds.find (J := J))
          have hs₁ : Coherent nodes s₁ := by
            refine h.change_same hchanges ?_
            rw [hn]
            exact ⟨index', hholds.cache⟩
          rw [← hlocal] at hrest
          obtain ⟨s₂, hreads, hlocal₂, hs₂⟩ := ih hs₁ hrest
          refine ⟨s₂, ?_, hlocal₂.trans hlocal, hs₂⟩
          rw [List.filterMap_cons_some (f := fun e : NodeId × NodeIndex => nodes[e.1]?) hn,
            List.all_cons]
          unfold TieredStorage.resolveAll
          simp only [hread, Option.bind_eq_bind]
          by_cases hp : parses n.properties = true
          · rw [if_pos hp, hp, Bool.true_and, Option.bind_some]
            simp only [hreads]
            split_ifs
            · simp only [Option.bind_some, hholds.record, Option.pure_def]
            · rfl
          · rw [if_neg hp, Bool.eq_false_of_not_eq_true hp]
            rfl

/-- The nodes that a scan comes to. -/
def scanned (J : Serde) (nodes : OrdMap NodeId Node) (s : TieredStorage) (nodeType : String)
    (limit : Option ℕ) : List Node :=
  (LocalStorage.takeLimit limit (s.local_.recordsOfType J nodeType)).filterMap fun e => nodes[e.1]?

/-- A scan returns the nodes of the records that are listed, if their payloads parse. -/
theorem Coherent.getNodesByType (h : Coherent nodes s) (nodeType : String) (limit : Option ℕ) :
    ∃ s', s.getNodesByType J nodeType limit =
        (if (scanned J nodes s nodeType limit).all (fun n => parses n.properties) then
          some (scanned J nodes s nodeType limit, s') else none) ∧
      s'.local_ = s.local_ ∧ Coherent nodes s' := by
  unfold TieredStorage.getNodesByType LocalStorage.getNodeIndexesByType readRows
  rw [if_pos (List.all_eq_true.mpr fun e _ => h.recordParses e.1), Option.bind_some]
  refine h.resolveAll fun e he => ?_
  obtain ⟨id, -, hmap⟩ := List.mem_filterMap.mp ((LocalStorage.takeLimit_sublist _ _).mem he)
  obtain ⟨index, hindex, rfl⟩ := Option.map_eq_some_iff.mp hmap
  exact hindex

/-- Without a limit, these are the nodes of the ids that are listed. -/
theorem Coherent.listed_nodes (h : Coherent nodes s) (nodeType : String) :
    scanned J nodes s nodeType none =
      (s.local_.nodeTypeIndex.get nodeType).filterMap fun id => nodes[id]? := by
  unfold scanned LocalStorage.recordsOfType LocalStorage.takeLimit
  rw [List.filterMap_filterMap]
  refine List.filterMap_congr fun id _ => ?_
  have hid := h id
  unfold LocalStorage.recordOf
  cases hn : nodes[id]? with
  | none =>
      rw [hn] at hid
      have hcopies : s.copies id = ⟨none, none, none, none, none⟩ := hid
      rw [show s.local_.nodeIndexes[id]? = none from congrArg Copies.index hcopies,
        show s.local_.nodes[id]? = none from congrArg Copies.row hcopies]
      rfl
  | some n =>
      rw [hn] at hid
      obtain ⟨index, hholds⟩ := hid
      rw [show s.local_.nodeIndexes[id]? = some index from hholds.indexed]
      exact hn

/-- An update of a node that there is; it fails on an old or a new payload that does not parse. -/
theorem Coherent.updateNode_some (h : Coherent nodes s) {id : NodeId} {n : Node}
    (hn : nodes[id]? = some n) (now : Timestamp) (v : Value) :
    ∃ n' s', s.updateNode J now id v =
        (if parses n.properties && parses (mergeProps n.properties v) then some (n', s')
        else none) ∧
      n'.properties = mergeProps n.properties v ∧
      Coherent (nodes.insert id (J.node (LocalStorage.touchNode now n v))) s' := by
  have hid := h id
  rw [hn] at hid
  obtain ⟨index, hholds⟩ := hid
  obtain ⟨s', hupdate, hchanges⟩ := s.updateNode_eq J id n.properties now v
    (hholds.getNodeIndex (J := J)) (hholds.find (J := J))
  refine ⟨_, s', hupdate, rfl, h.change hchanges ?_ fun id' hne => OrdMap.get_insert_of_ne _ _ hne⟩
  rw [OrdMap.get_insert_self]
  exact ⟨_, hholds.update now v _ _⟩

theorem Coherent.updateNode (h : Coherent nodes s) (now : Timestamp) (id : NodeId) (v : Value) :
    Coherent ((StoreOp.updateNode now id v).effect J nodes)
      ((StoreOp.updateNode now id v).run J U s) := by
  simp only [StoreOp.effect, StoreOp.run]
  cases hn : nodes[id]? with
  | none =>
      have hid := h id
      rw [hn] at hid
      have hnone : s.updateNode J now id v = none := by
        unfold TieredStorage.updateNode
        rw [TieredStorage.getNodeIndex_eq,
          show s.copies id = ⟨none, none, none, none, none⟩ from hid]
        rfl
      simp only [hnone]
      exact h
  | some n =>
      obtain ⟨n', s', hupdate, -, hs'⟩ := h.updateNode_some (J := J) hn now v
      simp only [hupdate]
      split_ifs
      · exact hs'
      · exact h

theorem Coherent.evictToCloud (h : Coherent nodes s) {id : NodeId}
    (hsafe : EvictSafe J (s.copies id)) : Coherent nodes ((s.evictToCloud J id).getD s) := by
  by_cases hbucket : s.bucket.isSome = true
  · cases hp : (s.copies id).getPayload J with
    | none =>
        unfold TieredStorage.evictToCloud
        rw [if_pos hbucket, TieredStorage.getPayload_eq, hp]
        exact h
    | some p =>
        obtain ⟨index, hindex⟩ := h.getNodeIndex (J := J) id
        obtain ⟨s', hevict, hchanges⟩ := s.evictToCloud_eq J id p hbucket hp hindex
        rw [hevict]
        refine h.change_same hchanges ?_
        have hid := h id
        cases hn : nodes[id]? with
        | none =>
            rw [hn] at hid
            rw [show s.copies id = ⟨none, none, none, none, none⟩ from hid] at hp
            cases hp
        | some n =>
            rw [hn] at hid
            obtain ⟨index', hholds⟩ := hid
            obtain rfl := Option.some.inj (hindex.symm.trans hholds.getNodeIndex)
            exact ⟨_, hholds.evict hsafe hp⟩
  · unfold TieredStorage.evictToCloud
    rw [if_neg hbucket]
    exact h

theorem Coherent.promoteToLocal (h : Coherent nodes s) {id : NodeId}
    (hsafe : PromoteSafe J (s.copies id)) : Coherent nodes ((s.promoteToLocal J id).getD s) := by
  cases hp : (s.copies id).object with
  | none =>
      unfold TieredStorage.promoteToLocal
      rw [show s.fetchCloudPayload id = none from hp]
      exact h
  | some p =>
      obtain ⟨index, hindex⟩ := h.getNodeIndex (J := J) id
      obtain ⟨s', hpromote, hchanges⟩ := s.promoteToLocal_eq J id p hp hindex
      rw [hpromote]
      refine h.change_same hchanges ?_
      have hid := h id
      cases hn : nodes[id]? with
      | none =>
          rw [hn] at hid
          rw [show s.copies id = ⟨none, none, none, none, none⟩ from hid] at hp
          cases hp
      | some n =>
          rw [hn] at hid
          obtain ⟨index', hholds⟩ := hid
          obtain rfl := Option.some.inj (hindex.symm.trans hholds.getNodeIndex)
          exact ⟨_, hholds.promote hsafe hp⟩

/-- An eviction that works leaves the other nodes. -/
theorem evictToCloud_off {id : NodeId} {s' : TieredStorage} (h : s.evictToCloud J id = some s')
    (id' : NodeId) (hne : id ≠ id') : s'.copies id' = s.copies id' := by
  obtain ⟨hbucket, p, index, hp, hindex⟩ := s.evictToCloud_inv J id h
  obtain ⟨s'', hevict, hchanges⟩ := s.evictToCloud_eq J id p hbucket hp hindex
  obtain rfl := Option.some.inj (h.symm.trans hevict)
  exact hchanges.off_id id' hne

theorem Coherent.evictUntil {candidates : List (NodeId × ℕ)} (target bytes : ℕ)
    (h : Coherent nodes s) (hnodup : (candidates.map Prod.fst).Nodup)
    (hsafe : ∀ e ∈ candidates, EvictSafe J (s.copies e.1)) :
    Coherent nodes (TieredStorage.evictUntil J target bytes s candidates).2 := by
  induction candidates generalizing bytes s with
  | nil => exact h
  | cons e rest ih =>
      obtain ⟨id, size⟩ := e
      obtain ⟨hnot, hnodup⟩ := List.nodup_cons.mp hnodup
      unfold TieredStorage.evictUntil
      split_ifs with hbytes
      · exact h
      have hstep := h.evictToCloud (hsafe _ List.mem_cons_self)
      cases hevict : s.evictToCloud J id with
      | none => exact ih bytes h hnodup fun e he => hsafe e (List.mem_cons_of_mem _ he)
      | some s' =>
          rw [hevict] at hstep
          refine ih (bytes - size) hstep hnodup fun e he => ?_
          have hne : id ≠ e.1 := by
            rintro rfl
            exact hnot (List.mem_map.mpr ⟨e, he, rfl⟩)
          rw [evictToCloud_off hevict e.1 hne]
          exact hsafe e (List.mem_cons_of_mem _ he)

/-- A candidate for eviction is local. -/
theorem evictSafe_of_candidate {minSize : ℕ} {e : NodeId × ℕ}
    (he : e ∈ s.evictionCandidates minSize) : EvictSafe J (s.copies e.1) := by
  unfold TieredStorage.evictionCandidates at he
  obtain ⟨⟨id, index⟩, hmem, rfl⟩ := List.mem_map.mp he
  rw [List.mem_mergeSort, List.mem_filter, decide_eq_true_eq] at hmem
  obtain ⟨hin, hloc, _⟩ := hmem
  intro index' hindex' hcloud
  have hindex : s.local_.nodeIndexes[id]? = some index := (OrdMap.mem_toList _ _ _).mp hin
  obtain rfl : index = index' := Option.some.inj (hindex.symm.trans hindex')
  rw [hloc] at hcloud
  cases hcloud

theorem nodup_candidates (s : TieredStorage) (minSize : ℕ) :
    ((s.evictionCandidates minSize).map Prod.fst).Nodup := by
  unfold TieredStorage.evictionCandidates
  rw [List.map_map]
  have hperm := (List.mergeSort_perm (s.local_.nodeIndexes.toList.filter fun e =>
    e.2.payloadLocation = .local ∧ minSize ≤ e.2.payloadSize)
      (fun a b => a.2.updatedAt ≤ b.2.updatedAt)).map Prod.fst
  refine hperm.nodup_iff.mpr ?_
  have hkeys : (s.local_.nodeIndexes.toList.map Prod.fst).Nodup := by
    refine List.Pairwise.map _ ?_ (OrdMap.toList_sorted s.local_.nodeIndexes)
    exact fun a b hab => hab.ne
  exact hkeys.sublist (List.filter_sublist.map Prod.fst)

theorem Coherent.runEviction (h : Coherent nodes s) (fileBytes : ℕ) :
    Coherent nodes (s.runEviction J fileBytes).2 := by
  unfold TieredStorage.runEviction
  split_ifs
  · exact h
  · exact h.evictUntil _ _ (nodup_candidates s _) fun e he => evictSafe_of_candidate he

/-- A lost cache entry is the one copy that goes. -/
theorem copies_loseCache (s : TieredStorage) {ids : List NodeId} {id : NodeId} (hid : id ∈ ids) :
    ({ s with cache := s.cache.eraseAll ids } : TieredStorage).copies id =
      { s.copies id with cached := none } := by
  have hcached : (s.cache.eraseAll ids)[id]? = none := by rw [OrdMap.get_eraseAll, if_pos hid]
  unfold TieredStorage.copies
  rw [hcached]
  rfl

theorem Coherent.loseCache (h : Coherent nodes s) (ids : List NodeId) :
    Coherent nodes { s with cache := s.cache.eraseAll ids } := by
  intro id
  by_cases hid : id ∈ ids
  · rw [copies_loseCache s hid]
    exact (h id).uncache
  · have hcached : (s.cache.eraseAll ids)[id]? = s.cache[id]? := by
      rw [OrdMap.get_eraseAll, if_neg hid]
    have hcopies : ({ s with cache := s.cache.eraseAll ids } : TieredStorage).copies id =
        s.copies id := by
      unfold TieredStorage.copies
      rw [hcached]
      rfl
    rw [hcopies]
    exact h id

/-- Indexes have tables of their own. -/
theorem Coherent.of_tables (h : Coherent nodes s) {l : LocalStorage}
    (hindex : l.nodeIndexes = s.local_.nodeIndexes) (hrow : l.nodes = s.local_.nodes)
    (hpayload : l.nodePayloads = s.local_.nodePayloads) :
        Coherent nodes { s with local_ := l } := by
  intro id
  have hcopies : ({ s with local_ := l } : TieredStorage).copies id = s.copies id := by
    unfold TieredStorage.copies
    rw [hindex, hrow, hpayload]
    rfl
  rw [hcopies]
  exact h id

theorem Coherent.createIndex (h : Coherent nodes s) (t f : String) :
    Coherent nodes ((s.createIndex J t f).getD s) := by
  rw [s.createIndex_getD, LocalStorage.createPropertyIndex_eq]
  exact h.of_tables rfl rfl rfl

theorem Coherent.createFulltextIndex (h : Coherent nodes s) (t f : String) :
    Coherent nodes ((s.createFulltextIndex U t f).getD s) := by
  obtain ⟨m, hm⟩ := LocalStorage.createFulltextIndex_eq U s.local_ t f
  rw [s.createFulltextIndex_getD, hm]
  exact h.of_tables rfl rfl rfl

end

/-! ### Runs -/

/-- The operation trusts no stale copy, and what it inserts parses. -/
def StoreOp.TieringSafe (J : Serde) (t : Tracked) : StoreOp → Prop
  | insertNode node => parses node.properties = true
  | insertNodesBatch batch => AllParse ((insertNodesBatch batch).effect J ∅)
  | evictToCloud id => EvictSafe J (t.store.copies id)
  | promoteToLocal id => PromoteSafe J (t.store.copies id)
  | _ => True

section

variable {J : Serde} {U : Unicode}

theorem Coherent.step {t : Tracked} (h : Coherent t.nodes t.store) {op : StoreOp}
    (hsafe : op.TieringSafe J t) :
    Coherent (t.step J U op).nodes (t.step J U op).store := by
  cases op with
  | insertNode node => exact h.insertNode node
  | insertNodesBatch batch => exact h.insertNodesBatch batch
  | updateNode now id v => exact h.updateNode (U := U) now id v
  | deleteNode id =>
      obtain ⟨s', hdelete, hs'⟩ := h.deleteNode id
      simp only [Tracked.step, StoreOp.run, hdelete]
      exact hs'
  | getNode id =>
      obtain ⟨s', hread, _, hs'⟩ := h.getNode (J := J) id
      simp only [Tracked.step, StoreOp.run, hread]
      split_ifs
      · exact hs'
      · exact h
  | evictToCloud id => exact h.evictToCloud hsafe
  | promoteToLocal id => exact h.promoteToLocal hsafe
  | runEviction fileBytes => exact h.runEviction fileBytes
  | loseCache ids => exact h.loseCache ids
  | createIndex t f => exact h.createIndex t f
  | dropIndex t f => exact h.of_tables rfl rfl rfl
  | createFulltextIndex t f => exact h.createFulltextIndex t f

/-- An update that is accepted leaves a payload that parses. -/
theorem AllParse.step {t : Tracked} (h : AllParse t.nodes) {op : StoreOp}
    (hsafe : op.TieringSafe J t) : AllParse (t.step J U op).nodes := by
  have hinsert : ∀ (id : NodeId) (n : Node), parses n.properties = true →
      AllParse (t.nodes.insert id n) := by
    intro id n hp id' n' hn'
    rw [OrdMap.get_insert] at hn'
    split_ifs at hn'
    · obtain rfl := Option.some.inj hn'
      exact hp
    · exact h id' n' hn'
  cases op with
  | insertNode node => exact hinsert node.id (J.node node) ((J.parses_props _).trans hsafe)
  | insertNodesBatch batch =>
      intro id n hn
      have hor := OrdMap.get_insertAll_or t.nodes Node.id J.node batch id
      rw [show (t.nodes.insertAll Node.id J.node batch)[id]? = some n from hn] at hor
      cases hbatch : ((∅ : OrdMap NodeId Node).insertAll Node.id J.node batch)[id]? with
      | some n' =>
          rw [hbatch, Option.some_or] at hor
          exact hsafe id n (hbatch.trans hor.symm)
      | none =>
          rw [hbatch, Option.none_or] at hor
          exact h id n hor.symm
  | updateNode now id v =>
      simp only [Tracked.step, StoreOp.effect]
      cases hn : t.nodes[id]? with
      | none => exact h
      | some n =>
          simp only
          split_ifs with hparses
          · rw [Bool.and_eq_true] at hparses
            exact hinsert id _ ((J.parses_props _).trans hparses.2)
          · exact h
  | deleteNode id =>
      intro id' n hn
      simp only [Tracked.step, StoreOp.effect, OrdMap.get_erase] at hn
      split_ifs at hn
      exact h id' n hn
  | _ => exact h

theorem coherent_run {t : Tracked} (h : Coherent t.nodes t.store) {ops : List StoreOp}
    (hsafe : Run.Along (Tracked.step J U) (fun t op => op.TieringSafe J t) t ops) :
    Coherent (Run.run (Tracked.step J U) t ops).nodes
      (Run.run (Tracked.step J U) t ops).store := by
  have hstep : ∀ (t : Tracked) (op : StoreOp), Coherent t.nodes t.store → op.TieringSafe J t →
      Coherent (t.step J U op).nodes (t.step J U op).store := fun _ _ h hs => h.step hs
  exact hsafe.invariant hstep h

theorem allParse_run {t : Tracked} (h : AllParse t.nodes) {ops : List StoreOp}
    (hsafe : Run.Along (Tracked.step J U) (fun t op => op.TieringSafe J t) t ops) :
    AllParse (Run.run (Tracked.step J U) t ops).nodes := by
  have hstep : ∀ (t : Tracked) (op : StoreOp), AllParse t.nodes → op.TieringSafe J t →
      AllParse (t.step J U op).nodes := fun _ _ h hs => h.step hs
  exact hsafe.invariant hstep h

theorem allParse_empty : AllParse ∅ := by
  intro id n hn
  rw [OrdMap.get_empty] at hn
  cases hn

/-- What a read finds in the copies, if it parses. -/
theorem getNode_of_copies {s : TieredStorage} {id : NodeId} {index : NodeIndex} {p : Props}
    (hindex : (s.copies id).getNodeIndex J = some (some index))
    (hp : (s.copies id).find J index = some p) :
    ∃ s', s.getNode J id = if parses p then some (some (index.toNode id p), s') else none := by
  obtain ⟨s', hres, _, _⟩ := s.resolvePayload_find J id p hp
  refine ⟨s', ?_⟩
  unfold TieredStorage.getNode
  rw [TieredStorage.getNodeIndex_eq, hindex]
  simp only [Option.bind_eq_bind, Option.bind_some, hres]
  split_ifs <;> rfl

/-- Every read returns what the insertions and updates have made of the node, even when cache
entries are lost before it. -/
def ReadsExact (J : Serde) (t : Tracked) : Prop :=
  ∀ lost id, ∃ s',
    ({ t.store with cache := t.store.cache.eraseAll lost } : TieredStorage).getNode J id =
      some (t.nodes[id]?, s')

theorem AllParse.all {nodes : OrdMap NodeId Node} (h : AllParse nodes) (id : NodeId) :
    (nodes[id]?).all (fun n => parses n.properties) = true := by
  cases hn : nodes[id]? with
  | none => rfl
  | some n => exact h id n hn

theorem Coherent.readsExact {t : Tracked} (h : Coherent t.nodes t.store)
    (hparse : AllParse t.nodes) : ReadsExact J t := by
  intro lost id
  obtain ⟨s', hread, _, _⟩ := (h.loseCache lost).getNode (J := J) id
  exact ⟨s', hread.trans (if_pos (hparse.all id))⟩

/-- Only nodes whose payload parses are read. -/
theorem Coherent.allParse_of_readsExact {t : Tracked} (h : Coherent t.nodes t.store)
    (hreads : ReadsExact J t) : AllParse t.nodes := by
  intro id n hn
  obtain ⟨s', hread⟩ := hreads [] id
  obtain ⟨s'', hread', -, -⟩ := (h.loseCache []).getNode (J := J) id
  rw [hread', hn] at hread
  split_ifs at hread with hall
  exact hall

/-- When reads are exact, the copy behind the cache is the node's. -/
theorem ReadsExact.payload_eq {t : Tracked} (h : ReadsExact J t) {id : NodeId} {n : Node}
    {c : Copies} {index : NodeIndex} {p : Props} (hn : t.nodes[id]? = some n)
    (hc : t.store.copies id = c) (hindex : c.index = some index)
    (hp : Copies.find J { c with cached := none } index = some p) : p = n.properties := by
  obtain ⟨s', hread⟩ := h [id] id
  have hcopies := copies_loseCache t.store (List.mem_singleton_self id)
  rw [hc] at hcopies
  have hrecord : Copies.getNodeIndex J { c with cached := none } = some (some index) := by
    unfold Copies.getNodeIndex
    rw [show ({ c with cached := none } : Copies).index = some index from hindex]
  rw [← hcopies] at hrecord hp
  obtain ⟨s'', hread'⟩ := getNode_of_copies hrecord hp
  rw [hread, hn] at hread'
  split_ifs at hread'
  rw [Option.some.injEq, Prod.mk.injEq, Option.some.injEq] at hread'
  rw [hread'.1]
  rfl

/-- An index record belongs to a node. -/
theorem Coherent.holds_of_index {nodes : OrdMap NodeId Node} {s : TieredStorage}
    (h : Coherent nodes s) {id : NodeId} {index : NodeIndex}
    (hindex : (s.copies id).index = some index) :
    ∃ n, nodes[id]? = some n ∧ Holds id n (s.copies id) index := by
  have hid := h id
  cases hn : nodes[id]? with
  | none =>
      rw [hn] at hid
      rw [show s.copies id = ⟨none, none, none, none, none⟩ from hid] at hindex
      cases hindex
  | some n =>
      rw [hn] at hid
      obtain ⟨index', hholds⟩ := hid
      obtain rfl := Option.some.inj (hholds.indexed.symm.trans hindex)
      exact ⟨n, rfl, hholds⟩

/-- An operation that trusts a stale copy, or inserts what does not parse, makes a read go wrong. -/
theorem Coherent.safe_of_readsExact {t : Tracked} (h : Coherent t.nodes t.store) {op : StoreOp}
    (hreads : ReadsExact J (t.step J U op)) : op.TieringSafe J t := by
  cases op with
  | insertNode node =>
      have hall := (h.insertNode (J := J) (U := U) node).allParse_of_readsExact
        (t := t.step J U (.insertNode node)) hreads
      exact (J.parses_props _).symm.trans (hall node.id _ (OrdMap.get_insert_self _ _ _))
  | insertNodesBatch batch =>
      have hall := (h.insertNodesBatch (J := J) batch).allParse_of_readsExact
        (t := t.step J U (.insertNodesBatch batch)) hreads
      intro id n hn
      refine hall id n ?_
      have hor := OrdMap.get_insertAll_or t.nodes Node.id J.node batch id
      rw [show ((∅ : OrdMap NodeId Node).insertAll Node.id J.node batch)[id]? = some n from hn,
        Option.some_or] at hor
      exact hor
  | evictToCloud id =>
      intro index hindex hcloud p hp
      obtain ⟨n, hn, hholds⟩ := h.holds_of_index hindex
      obtain ⟨_, hobject⟩ := hholds.placed_cloud hcloud
      have hbucket : t.store.bucket.isSome = true := by
        cases hb : t.store.bucket with
        | none => simp [TieredStorage.copies, TieredStorage.fetchCloudPayload, hb] at hobject
        | some objects => rfl
      obtain ⟨s', hevict, hchanges⟩ :=
        t.store.evictToCloud_eq J id p hbucket hp hholds.getNodeIndex
      have hstore : (t.step J U (.evictToCloud id)).store = s' := by
        simp only [Tracked.step, StoreOp.run, hevict, Option.getD_some]
      have hcopies := hchanges.at_id
      rw [← hstore, Option.map_some] at hcopies
      -- The object is now the older row.
      have hpn : p = n.properties := hreads.payload_eq hn hcopies rfl rfl
      rw [hobject, hpn]
  | promoteToLocal id =>
      intro index hindex hlocal p hp
      obtain ⟨n, hn, hholds⟩ := h.holds_of_index hindex
      obtain ⟨s', hpromote, hchanges⟩ := t.store.promoteToLocal_eq J id p hp hholds.getNodeIndex
      have hstore : (t.step J U (.promoteToLocal id)).store = s' := by
        simp only [Tracked.step, StoreOp.run, hpromote, Option.getD_some]
      have hcopies := hchanges.at_id
      rw [← hstore, Option.map_some] at hcopies
      -- The payload is now the object.
      have hpn : p = n.properties := hreads.payload_eq hn hcopies rfl rfl
      unfold Copies.getPayload
      rw [hholds.placed_local hlocal, hpn]
  | _ => trivial

end

/-! ### The result -/

/-- Reads return what insertions and updates alone have made of the nodes, after every beginning of
a run and whatever the cache loses, exactly when no operation of the run trusts a stale copy or
inserts a payload that does not parse. -/
theorem getNode_eq_contents (J : Serde) (U : Unicode) (config : TieredConfig) (hasBucket : Bool)
    (ops : List StoreOp) :
    (∀ before, before <+: ops → ReadsExact J (.reached J U config hasBucket before)) ↔
      Run.Along (Tracked.step J U) (fun t op => op.TieringSafe J t) (.new config hasBucket)
          ops := by
  have hnew : Coherent (Tracked.new config hasBucket).nodes (Tracked.new config hasBucket).store :=
    coherent_new config hasBucket
  constructor
  · intro h
    induction ops using List.reverseRecOn with
    | nil => trivial
    | append_singleton ops op ih =>
        have hsafe := ih fun before hbefore => h before (hbefore.trans (List.prefix_append _ _))
        refine Run.along_concat.mpr ⟨hsafe, (coherent_run hnew hsafe).safe_of_readsExact
          (U := U) ?_⟩
        have hall := h _ List.prefix_rfl
        rwa [Tracked.reached, Run.run_concat] at hall
  · intro hsafe before hbefore
    exact (coherent_run hnew (hsafe.upto hbefore)).readsExact
      (allParse_run allParse_empty (hsafe.upto hbefore))

/-- A node is evicted, updated and promoted, and its cache entry is lost. -/
def sampleTiering : List StoreOp :=
  [.insertNode ⟨⟨1⟩, "user", (∅ : Props).insert "age" (.int 30), 0, 0⟩, .evictToCloud ⟨1⟩,
    .updateNode 5 ⟨1⟩ (.object [("city", .string "Rome")]), .promoteToLocal ⟨1⟩, .loseCache [⟨1⟩]]

/-- The promotion brings the payload from before the update back. -/
theorem stale_promotion_shows :
    ¬ ReadsExact plainJson
      (.reached plainJson asciiUnicode ⟨1000, 0, false⟩ true sampleTiering) := by
  intro h
  obtain ⟨s', hread⟩ := h [] ⟨1⟩
  have hsize := congrArg (Option.map fun r => r.1.map fun n => n.properties.size) hread
  simp only [Option.map_some] at hsize
  exact absurd hsize (by decide +kernel)

end AresaDb.Store
