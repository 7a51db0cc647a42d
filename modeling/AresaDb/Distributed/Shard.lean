import AresaDb.Distributed.Bloom
import AresaDb.Lib.Run
import AresaDb.Store.Local

/-! # Shards

`ShardManager` (`distributed/shard.rs`) spreads nodes over several local databases by a ring of
hashes, with a Bloom filter in front of each.  The two hash functions are parameters.  Opening a
manager opens its databases and starts every filter empty.

The ring is the same at every opening, so an id is always sent to one shard; what that shard holds
is what was inserted and updated there.  The filter must contain every stored id for a lookup to
reach the shard, and after an opening it contains none.  So the manager is one map exactly along the
runs that open no manager with nodes in it and store only nodes that survive the JSON round trip and
parse when they are read (`sharded_exact_iff`). -/

namespace AresaDb.Distributed

open ByteOrder Store

/-! ### The ring -/

/-- The ring of consistent hashing: hashes of virtual nodes, with their shard. -/
structure ConsistentHashRing where
  virtualNodes : ℕ
  ring : OrdMap UInt64 ℕ

namespace ConsistentHashRing

def new (virtualNodes : ℕ) : ConsistentHashRing := ⟨virtualNodes, ∅⟩

/-- The name of a virtual node. -/
def virtualKey (nodeId i : ℕ) : Bytes :=
  ("node_" ++ toString nodeId ++ "_" ++ toString i).toUTF8.toList

variable (xx : Bytes → UInt64)

def addNode (r : ConsistentHashRing) (nodeId : ℕ) : ConsistentHashRing :=
  { r with
    ring := (List.range r.virtualNodes).foldl
      (fun m i => m.insert (xx (virtualKey nodeId i)) nodeId) r.ring }

/-- The first node at or after a hash, else the first of the ring; zero in an empty ring. -/
def nodeAt (r : ConsistentHashRing) (hash : UInt64) : ℕ :=
  match r.ring.toList.find? (fun e => hash ≤ e.1) with
  | some e => e.2
  | none => r.ring.values.head?.getD 0

def getNode (r : ConsistentHashRing) (key : Bytes) : ℕ := r.nodeAt (xx key)

/-- The nodes of a ring are below a bound. -/
def Bounded (n : ℕ) (r : ConsistentHashRing) : Prop := ∀ (k : UInt64) i, r.ring[k]? = some i → i < n

theorem Bounded.nodeAt_lt {n : ℕ} {r : ConsistentHashRing} (h : Bounded n r) (hn : 0 < n)
    (hash : UInt64) : r.nodeAt hash < n := by
  unfold nodeAt
  split
  · rename_i e he
    exact h e.1 e.2 ((OrdMap.mem_toList _ _ _).mp (List.mem_of_find?_eq_some he))
  · cases hv : r.ring.values.head? with
    | none => exact hn
    | some i =>
        obtain ⟨k, hk⟩ := (OrdMap.mem_values _ _).mp (List.mem_of_head? hv)
        exact h k i hk

theorem Bounded.addNode {n : ℕ} {r : ConsistentHashRing} (h : Bounded n r) {i : ℕ} (hi : i < n) :
    Bounded n (r.addNode xx i) := by
  have hfold : ∀ (l : List ℕ) (m : OrdMap UInt64 ℕ), (∀ (k : UInt64) j, m[k]? = some j → j < n) →
      ∀ (k : UInt64) j, (l.foldl (fun m v => m.insert (xx (virtualKey i v)) i) m)[k]? = some j →
        j < n := by
    intro l
    induction l with
    | nil => exact fun m hm => hm
    | cons v l ih =>
        intro m hm
        refine ih _ fun k j hj => ?_
        rw [OrdMap.get_insert] at hj
        split_ifs at hj
        · rw [← Option.some.inj hj]
          exact hi
        · exact hm k j hj
  exact hfold _ _ h

end ConsistentHashRing

/-! ### Managers -/

/-- How many shards there are, at least one, and how many virtual nodes each has in the ring. -/
structure ShardConfig where
  numShards : ℕ
  virtualNodes : ℕ
  hshards : 0 < numShards

/-- The ring of a configuration. -/
def ShardConfig.ring (xx : Bytes → UInt64) (config : ShardConfig) : ConsistentHashRing :=
  (List.range config.numShards).foldl (fun r i => r.addNode xx i) (.new config.virtualNodes)

theorem ShardConfig.bounded_ring (xx : Bytes → UInt64) (config : ShardConfig) :
    (config.ring xx).Bounded config.numShards := by
  have hfold : ∀ (l : List ℕ) (r : ConsistentHashRing), (∀ i ∈ l, i < config.numShards) →
      r.Bounded config.numShards →
        (l.foldl (fun r i => r.addNode xx i) r).Bounded config.numShards := by
    intro l
    induction l with
    | nil => exact fun r _ hr => hr
    | cons i l ih =>
        intro r hl hr
        exact ih _ (fun j hj => hl j (List.mem_cons_of_mem _ hj))
          (hr.addNode xx (hl i List.mem_cons_self))
  refine hfold _ _ (fun i => List.mem_range.mp) ?_
  intro k i hi
  simp [ConsistentHashRing.new] at hi

/-- One database with its filter. -/
structure Shard where
  id : ℕ
  storage : LocalStorage
  bloom : BloomFilter

/-- The filter of every shard, for 100 000 items and a false positive rate of one in a hundred. -/
def shardFilter : BloomFilter := .withParams 958506 7

/-- A manager; its ring names only shards that it has. -/
structure ShardManager where
  config : ShardConfig
  ring : ConsistentHashRing
  shards : List Shard
  hlength : shards.length = config.numShards
  hring : ring.Bounded config.numShards

namespace ShardManager

variable (xx : Bytes → UInt64) (sip : Bytes → UInt64 × UInt64) (J : Serde)

/-- The shards of a configuration over their databases, with empty filters. -/
def openAll (config : ShardConfig) (disk : List LocalStorage)
    (hdisk : disk.length = config.numShards) : ShardManager where
  config := config
  ring := config.ring xx
  shards := disk.mapIdx fun i storage => ⟨i, storage, shardFilter⟩
  hlength := by rw [List.length_mapIdx, hdisk]
  hring := config.bounded_ring xx

/-- A manager over new databases. -/
def new (config : ShardConfig) : ShardManager :=
  openAll xx config (List.replicate config.numShards .create) List.length_replicate

variable (m : ShardManager)

/-- Open the databases of a manager again. -/
def reopen : ShardManager :=
  openAll xx m.config (m.shards.map Shard.storage) (by rw [List.length_map, m.hlength])

/-- The bytes of an id. -/
def uuidBytes (uuid : BitVec 128) : Bytes :=
  (List.range 16).map fun i => UInt8.ofNat (uuid.toNat >>> (8 * (15 - i)))

/-- The index of the shard of a node. -/
def route (id : NodeId) : ℕ := m.ring.getNode xx (uuidBytes id.uuid)

theorem route_lt (id : NodeId) : m.route xx id < m.shards.length := by
  rw [m.hlength]
  exact m.hring.nodeAt_lt m.config.hshards _

def getShardForNode (id : NodeId) : Shard := m.shards.get ⟨m.route xx id, m.route_lt xx id⟩

/-- Replace the shard of a node. -/
def setShard (id : NodeId) (shard : Shard) : ShardManager :=
  { m with
    shards := m.shards.set (m.route xx id) shard
    hlength := by rw [List.length_set, m.hlength] }

/-! ### Operations -/

def insertNode (node : Node) : ShardManager :=
  let shard := m.getShardForNode xx node.id
  m.setShard xx node.id
    { shard with
      bloom := shard.bloom.insert sip (uuidBytes node.id.uuid)
      storage := shard.storage.insertNode J node }

/-- The filter is asked first. -/
def getNode (id : NodeId) : Option (Option Node) :=
  let shard := m.getShardForNode xx id
  if shard.bloom.mayContain sip (uuidBytes id.uuid) then shard.storage.getNode id else some none

/-- It is an error, too, that the node is not found. -/
def updateNode (now : Timestamp) (id : NodeId) (properties : Value) : Option ShardManager :=
  let shard := m.getShardForNode xx id
  (shard.storage.updateNode J now id properties).map fun storage =>
    m.setShard xx id { shard with storage := storage }

def deleteNode (id : NodeId) : Option ShardManager :=
  let shard := m.getShardForNode xx id
  (shard.storage.deleteNode id).map fun storage =>
    m.setShard xx id { shard with storage := storage }

/-- Edges are stored with the shard of their source node. -/
def insertEdge (edge : Edge) : ShardManager :=
  let shard := m.getShardForNode xx edge.from_
  m.setShard xx edge.from_
    { shard with
      bloom := shard.bloom.insert sip (uuidBytes edge.id.uuid)
      storage := shard.storage.insertEdge J edge }

end ShardManager

/-! ### Runs -/

inductive ShardOp
  | insertNode (node : Node)
  | updateNode (now : Timestamp) (id : NodeId) (properties : Value)
  | deleteNode (id : NodeId)
  | insertEdge (edge : Edge)
  | reopen

/-- What the manager stands for. -/
abbrev Contents := NodeId → Option Node

/-- What an operation does to the contents; an update of a node that is not there does nothing. -/
def remember (c : Contents) : ShardOp → Contents
  | .insertNode node => Function.update c node.id (some node)
  | .updateNode now id properties =>
      match c id with
      | some node => Function.update c id (some (LocalStorage.touchNode now node properties))
      | none => c
  | .deleteNode id => Function.update c id none
  | .insertEdge _ => c
  | .reopen => c

section

variable {c : Contents} {now : Timestamp} {id : NodeId} {properties : Value}

theorem remember_update_some {node : Node} (hc : c id = some node) :
    remember c (.updateNode now id properties) =
      Function.update c id (some (LocalStorage.touchNode now node properties)) := by
  simp only [remember, hc]

theorem remember_update_none (hc : c id = none) :
    remember c (.updateNode now id properties) = c := by
  simp only [remember, hc]

end

/-- The contents after a run from a new manager. -/
def contents (ops : List ShardOp) : Contents := Run.run remember (fun _ => none) ops

namespace ShardManager

variable (xx : Bytes → UInt64) (sip : Bytes → UInt64 × UInt64) (J : Serde)

/-- An operation that fails changes nothing. -/
def step (m : ShardManager) : ShardOp → ShardManager
  | .insertNode node => m.insertNode xx sip J node
  | .updateNode now id properties => (m.updateNode xx J now id properties).getD m
  | .deleteNode id => (m.deleteNode xx id).getD m
  | .insertEdge edge => m.insertEdge xx sip J edge
  | .reopen => m.reopen xx

/-- A node survives the round trip: its row parses, and is the node. -/
def Survives (node : Node) : Prop := node.parses = true ∧ J.node node = node

/-- Nothing is stored when the manager is opened again, and what is stored survives the round
trip. -/
def Kept (c : Contents) : ShardOp → Prop
  | .insertNode node => Survives J node
  | .updateNode now id properties => ∀ node, c id = some node →
      Survives J (LocalStorage.touchNode now node properties)
  | .reopen => ∀ id, c id = none
  | _ => True

/-! ### Shards of other nodes -/

variable {xx sip J} {m : ShardManager}

theorem getShardForNode_setShard (id : NodeId) (shard : Shard) (i : NodeId) :
    (m.setShard xx id shard).getShardForNode xx i =
      if m.route xx id = m.route xx i then shard else m.getShardForNode xx i := by
  have hlt : m.route xx i < (m.shards.set (m.route xx id) shard).length := by
    rw [List.length_set]
    exact m.route_lt xx i
  change (m.shards.set (m.route xx id) shard)[m.route xx i] = _
  rw [List.getElem_set]
  rfl

/-- The manager answers with the contents: its ring is the one of its configuration, each shard
holds the rows of its ids, which parse, and its filter contains them. -/
structure Holds (xx : Bytes → UInt64) (sip : Bytes → UInt64 × UInt64) (m : ShardManager)
    (c : Contents) : Prop where
  ring : m.ring = m.config.ring xx
  row : ∀ id, (m.getShardForNode xx id).storage.nodes[id]? = c id
  parses : ∀ id, (c id).all Node.parses = true
  filter : ∀ id, c id ≠ none →
    (m.getShardForNode xx id).bloom.mayContain sip (uuidBytes id.uuid) = true
  numBits : ∀ id, 0 < (m.getShardForNode xx id).bloom.numBits

variable {c : Contents}

theorem Holds.getNode (h : m.Holds xx sip c) (id : NodeId) : m.getNode xx sip id = some (c id) := by
  unfold ShardManager.getNode
  dsimp only
  split_ifs with hmay
  · rw [LocalStorage.getNode, h.row id, readRow, if_pos (h.parses id)]
  · by_contra hne
    exact hmay (h.filter id fun hnone => hne (congrArg some hnone.symm))

/-- Replacing a shard by one with other rows and with a filter that has forgotten nothing. -/
theorem Holds.setShard (h : m.Holds xx sip c) {id : NodeId} {shard : Shard} {c' : Contents}
    (hrow : shard.storage.nodes[id]? = c' id)
    (hrest : ∀ i, id ≠ i →
      shard.storage.nodes[i]? = (m.getShardForNode xx id).storage.nodes[i]?)
    (hc' : ∀ i, id ≠ i → c' i = c i)
    (hparses : (c' id).all Node.parses = true)
    (hself : c' id ≠ none → shard.bloom.mayContain sip (uuidBytes id.uuid) = true)
    (hmay : ∀ b, (m.getShardForNode xx id).bloom.mayContain sip b = true →
      shard.bloom.mayContain sip b = true)
    (hbits : 0 < shard.bloom.numBits) : (m.setShard xx id shard).Holds xx sip c' := by
  have hget : ∀ i, (m.setShard xx id shard).getShardForNode xx i =
      if m.route xx id = m.route xx i then shard else m.getShardForNode xx i :=
    getShardForNode_setShard id shard
  have hsame : ∀ i, m.route xx id = m.route xx i →
      m.getShardForNode xx i = m.getShardForNode xx id := by
    intro i hi
    unfold getShardForNode
    simp only [hi]
  refine ⟨h.ring, fun i => ?_, fun i => ?_, fun i hi => ?_, fun i => ?_⟩
  · rw [hget]
    split_ifs with hroute
    · by_cases heq : id = i
      · rw [← heq]
        exact hrow
      · rw [hrest i heq, hc' i heq, ← hsame i hroute]
        exact h.row i
    · have hne : id ≠ i := fun heq => hroute (by rw [heq])
      rw [hc' i hne]
      exact h.row i
  · by_cases heq : id = i
    · rw [← heq]
      exact hparses
    · rw [hc' i heq]
      exact h.parses i
  · rw [hget]
    by_cases heq : id = i
    · subst heq
      rw [if_pos rfl]
      exact hself hi
    · rw [hc' i heq] at hi
      have hold := h.filter i hi
      split_ifs with hroute
      · rw [hsame i hroute] at hold
        exact hmay _ hold
      · exact hold
  · rw [hget]
    split_ifs
    · exact hbits
    · exact h.numBits i

/-! ### Openings -/

theorem getShardForNode_openAll (config : ShardConfig) (disk : List LocalStorage)
    (hdisk : disk.length = config.numShards) (id : NodeId) :
    ∃ h : (config.ring xx).getNode xx (uuidBytes id.uuid) < disk.length,
      (openAll xx config disk hdisk).getShardForNode xx id =
        ⟨(config.ring xx).getNode xx (uuidBytes id.uuid),
          disk[(config.ring xx).getNode xx (uuidBytes id.uuid)], shardFilter⟩ := by
  have hlt : (config.ring xx).getNode xx (uuidBytes id.uuid) < disk.length := by
    rw [hdisk]
    exact (config.bounded_ring xx).nodeAt_lt config.hshards _
  have hmap : (config.ring xx).getNode xx (uuidBytes id.uuid) <
      (disk.mapIdx fun i storage => (⟨i, storage, shardFilter⟩ : Shard)).length := by
    rw [List.length_mapIdx]
    exact hlt
  refine ⟨hlt, ?_⟩
  change (disk.mapIdx fun i storage => (⟨i, storage, shardFilter⟩ : Shard))[
    (config.ring xx).getNode xx (uuidBytes id.uuid)] = _
  rw [List.getElem_mapIdx]

theorem numBits_shardFilter : 0 < shardFilter.numBits := by decide

/-- A filter that was just started contains nothing. -/
theorem mayContain_shardFilter (item : Bytes) : shardFilter.mayContain sip item = false :=
  BloomFilter.mayContain_withParams (by decide)

theorem holds_new (xx : Bytes → UInt64) (sip : Bytes → UInt64 × UInt64) (config : ShardConfig) :
    (new xx config).Holds xx sip fun _ => none := by
  have hshard : ∀ id, ((new xx config).getShardForNode xx id).storage = .create ∧
      ((new xx config).getShardForNode xx id).bloom = shardFilter := by
    intro id
    obtain ⟨hlt, hget⟩ := @getShardForNode_openAll xx config
      (List.replicate config.numShards .create) List.length_replicate id
    rw [new, hget]
    exact ⟨List.getElem_replicate hlt, rfl⟩
  refine ⟨rfl, fun id => ?_, fun _ => rfl, fun id hid => absurd rfl hid, fun id => ?_⟩
  · rw [(hshard id).1]
    simp [LocalStorage.create]
  · rw [(hshard id).2]
    exact numBits_shardFilter

/-- The ring is the same after an opening, so the databases are found again, with empty filters. -/
theorem Holds.reopen_shard (h : m.Holds xx sip c) (id : NodeId) :
    ((m.reopen xx).getShardForNode xx id).storage = (m.getShardForNode xx id).storage ∧
      ((m.reopen xx).getShardForNode xx id).bloom = shardFilter := by
  obtain ⟨hlt, hget⟩ := @getShardForNode_openAll xx m.config (m.shards.map Shard.storage)
    (by rw [List.length_map, m.hlength]) id
  rw [reopen, hget]
  refine ⟨?_, rfl⟩
  dsimp only
  rw [List.getElem_map]
  unfold getShardForNode route
  simp only [h.ring, List.get_eq_getElem]

theorem Holds.getNode_reopen (h : m.Holds xx sip c) (id : NodeId) :
    (m.reopen xx).getNode xx sip id = some none := by
  unfold ShardManager.getNode
  dsimp only
  rw [(h.reopen_shard id).2, mayContain_shardFilter, if_neg Bool.false_ne_true]

theorem Holds.reopen (h : m.Holds xx sip c) (hc : ∀ id, c id = none) :
    (m.reopen xx).Holds xx sip c := by
  refine ⟨rfl, fun id => ?_, h.parses, fun id hid => absurd (hc id) hid, fun id => ?_⟩
  · rw [(h.reopen_shard id).1]
    exact h.row id
  · rw [(h.reopen_shard id).2]
    exact numBits_shardFilter

/-! ### Steps -/

/-- What a lookup reads from the row of a node. -/
theorem getNode_setShard {id : NodeId} {shard : Shard} {row : Node}
    (hrow : shard.storage.nodes[id]? = some row)
    (hmay : shard.bloom.mayContain sip (uuidBytes id.uuid) = true) :
    (m.setShard xx id shard).getNode xx sip id = readRow Node.parses (some row) := by
  unfold ShardManager.getNode
  dsimp only
  rw [getShardForNode_setShard, if_pos rfl, if_pos hmay, LocalStorage.getNode, hrow]

theorem getNode_insertNode (h : m.Holds xx sip c) (node : Node) :
    (m.insertNode xx sip J node).getNode xx sip node.id =
      readRow Node.parses (some (J.node node)) :=
  getNode_setShard (OrdMap.get_insert_self _ _ _)
    (BloomFilter.mayContain_insert_self (h.numBits node.id))

/-- A lookup that finds a node read a row that survives. -/
theorem survives_of_readRow {node : Node}
    (h : readRow Node.parses (some (J.node node)) = some (some node)) : Survives J node := by
  obtain ⟨hparses, hrow⟩ := readRow_eq_some h
  have hnode : J.node node = node := Option.some.inj hrow.symm
  rw [hnode] at hparses
  exact ⟨hparses, hnode⟩

theorem Holds.insertNode (h : m.Holds xx sip c) {node : Node} (hnode : Survives J node) :
    (m.insertNode xx sip J node).Holds xx sip (Function.update c node.id (some node)) := by
  have hbits := h.numBits node.id
  refine h.setShard ?_ (fun i hi => OrdMap.get_insert_of_ne _ _ hi)
    (fun i hi => Function.update_of_ne hi.symm _ _) ?_ ?_ ?_ hbits
  · dsimp only
    rw [LocalStorage.insertNode, OrdMap.get_insert_self, hnode.2, Function.update_self]
  · rw [Function.update_self]
    exact hnode.1
  · exact fun _ => BloomFilter.mayContain_insert_self hbits
  · exact fun b hb => BloomFilter.mayContain_insert_of hbits hb

/-- An update writes the merged row, or fails when there is none. -/
theorem Holds.updateNode_eq (h : m.Holds xx sip c) (now : Timestamp) (id : NodeId)
    (properties : Value) :
    m.updateNode xx J now id properties = (c id).map fun node =>
      let shard := m.getShardForNode xx id
      m.setShard xx id
        { shard with
          storage :=
            { shard.storage with
              nodes := shard.storage.nodes.insert id
                (J.node (LocalStorage.touchNode now node properties)) } } := by
  have hrow : (c id).filter Node.parses = c id := by
    have hparses := h.parses id
    cases hc : c id with
    | none => rfl
    | some node =>
        rw [hc] at hparses
        exact Option.filter_some_pos hparses
  unfold ShardManager.updateNode LocalStorage.updateNode
  dsimp only
  rw [h.row id, hrow, Option.map_map]
  rfl

theorem Holds.updateNode (h : m.Holds xx sip c) {now : Timestamp} {id : NodeId} {properties : Value}
    (hkept : ∀ node, c id = some node →
      Survives J (LocalStorage.touchNode now node properties)) :
    ((m.updateNode xx J now id properties).getD m).Holds xx sip
      (remember c (.updateNode now id properties)) := by
  rw [h.updateNode_eq]
  cases hc : c id with
  | none =>
      rw [remember_update_none hc]
      exact h
  | some node =>
      rw [remember_update_some hc]
      have hfilter := h.filter id (by rw [hc]; exact Option.some_ne_none _)
      refine h.setShard ?_ (fun i hi => OrdMap.get_insert_of_ne _ _ hi)
        (fun i hi => Function.update_of_ne hi.symm _ _) ?_ (fun _ => hfilter) (fun _ hb => hb)
        (h.numBits id)
      · dsimp only
        rw [OrdMap.get_insert_self, (hkept node hc).2, Function.update_self]
      · rw [Function.update_self]
        exact (hkept node hc).1

/-- The row that is deleted parses, so it is deleted. -/
theorem Holds.deleteNode_eq (h : m.Holds xx sip c) (id : NodeId) :
    m.deleteNode xx id =
      let shard := m.getShardForNode xx id
      some (m.setShard xx id { shard with storage := shard.storage.removeNode id }) := by
  unfold ShardManager.deleteNode LocalStorage.deleteNode
  dsimp only
  rw [h.row id, if_pos (h.parses id)]
  rfl

theorem Holds.deleteNode (h : m.Holds xx sip c) (id : NodeId) :
    ((m.deleteNode xx id).getD m).Holds xx sip (Function.update c id none) := by
  rw [h.deleteNode_eq]
  refine h.setShard ?_ (fun i hi => ?_) (fun i hi => Function.update_of_ne hi.symm _ _) ?_ ?_
    (fun _ hb => hb) (h.numBits id)
  · dsimp only
    rw [LocalStorage.nodes_removeNode, OrdMap.get_erase_self, Function.update_self]
  · dsimp only
    rw [LocalStorage.nodes_removeNode, OrdMap.get_erase_of_ne _ hi]
  · rw [Function.update_self]
    rfl
  · exact fun hne => absurd (Function.update_self id none c) hne

theorem Holds.insertEdge (h : m.Holds xx sip c) (edge : Edge) :
    (m.insertEdge xx sip J edge).Holds xx sip c := by
  have hbits := h.numBits edge.from_
  refine h.setShard (h.row edge.from_) (fun _ _ => rfl) (fun _ _ => rfl) (h.parses edge.from_) ?_ ?_
    hbits
  · exact fun hne => BloomFilter.mayContain_insert_of hbits (h.filter edge.from_ hne)
  · exact fun b hb => BloomFilter.mayContain_insert_of hbits hb

theorem Holds.step (h : m.Holds xx sip c) {op : ShardOp} (hk : Kept J c op) :
    (m.step xx sip J op).Holds xx sip (remember c op) := by
  cases op with
  | insertNode node => exact h.insertNode hk
  | updateNode now id properties => exact h.updateNode hk
  | deleteNode id => exact h.deleteNode id
  | insertEdge edge => exact h.insertEdge edge
  | reopen => exact h.reopen hk

/-- Where the answers are right before and after an operation, it was kept: the answers after it
show what was lost. -/
theorem Holds.kept (h : m.Holds xx sip c) {op : ShardOp}
    (hafter : ∀ id, (m.step xx sip J op).getNode xx sip id = some (remember c op id)) :
    Kept J c op := by
  cases op with
  | insertNode node =>
      have hnode := hafter node.id
      rw [ShardManager.step, getNode_insertNode h, remember, Function.update_self] at hnode
      exact survives_of_readRow hnode
  | updateNode now id properties =>
      intro node hc
      have hnode := hafter id
      have hfilter := h.filter id (by rw [hc]; exact Option.some_ne_none _)
      rw [remember_update_some hc, Function.update_self, ShardManager.step, h.updateNode_eq, hc,
        Option.map_some, Option.getD_some] at hnode
      dsimp only at hnode
      refine survives_of_readRow (Eq.trans (Eq.symm (getNode_setShard ?_ ?_)) hnode)
      · exact OrdMap.get_insert_self _ _ _
      · exact hfilter
  | deleteNode id => trivial
  | insertEdge edge => trivial
  | reopen =>
      intro id
      have hnone := hafter id
      rw [ShardManager.step, h.getNode_reopen] at hnone
      exact (Option.some.inj hnone).symm

/-! ### Runs of operations -/

/-- The manager after a run from a new one. -/
def after (xx : Bytes → UInt64) (sip : Bytes → UInt64 × UInt64) (J : Serde) (config : ShardConfig)
    (ops : List ShardOp) : ShardManager := Run.run (step xx sip J) (new xx config) ops

theorem holds_after {config : ShardConfig} {ops : List ShardOp}
    (h : Run.Along remember (Kept J) (fun _ => none) ops) :
    (after xx sip J config ops).Holds xx sip (contents ops) := by
  induction ops using List.reverseRecOn with
  | nil => exact holds_new xx sip config
  | append_singleton ops op ih =>
      obtain ⟨hpre, hk⟩ := Run.along_concat.mp h
      rw [after, contents, Run.run_concat, Run.run_concat]
      exact (ih hpre).step hk

/-- **The shards behave as one map**: after every beginning of a run, every lookup answers with the
contents if and only if every operation of the run is kept. -/
theorem sharded_exact_iff (xx : Bytes → UInt64) (sip : Bytes → UInt64 × UInt64) (J : Serde)
    (config : ShardConfig) (ops : List ShardOp) :
    (∀ p, p <+: ops → ∀ id, (after xx sip J config p).getNode xx sip id = some (contents p id)) ↔
      Run.Along remember (Kept J) (fun _ => none) ops := by
  constructor
  · intro h
    induction ops using List.reverseRecOn with
    | nil => trivial
    | append_singleton ops op ih =>
        have hpre := ih fun p hp => h p (hp.trans (List.prefix_append _ _))
        have hholds : (after xx sip J config ops).Holds xx sip (contents ops) := holds_after hpre
        refine Run.along_concat.mpr ⟨hpre, hholds.kept fun id => ?_⟩
        have hlast := h (ops ++ [op]) (List.prefix_refl _) id
        rw [after, contents, Run.run_concat, Run.run_concat] at hlast
        exact hlast
  · intro h p hp id
    exact (holds_after (h.upto hp)).getNode id

/-- A node that is stored and not found again after an opening. -/
def sampleNode : Node := ⟨⟨7⟩, "user", (∅ : Props).insert "age" (.int 30), 0, 0⟩

/-- A hash function that looks at the length alone. -/
def lengthHash (item : Bytes) : UInt64 := .ofNat item.length

def pairHash (item : Bytes) : UInt64 × UInt64 := (lengthHash item, 1)

theorem plainJson_node (node : Node) : plainJson.node node = node := by
  have hprops : plainJson.props node.properties = node.properties := by
    refine OrdMap.ext fun k => ?_
    rw [Serde.get_props]
    exact congrFun Option.map_id _
  unfold Serde.node
  rw [hprops]

/-- The node is inserted, the manager is opened again, and the node is not found. -/
theorem reopened_empty :
    ¬ ∀ p, p <+: [.insertNode sampleNode, .reopen] → ∀ id,
      (after lengthHash pairHash plainJson ⟨4, 100, by decide⟩ p).getNode lengthHash pairHash id =
        some (contents p id) := by
  intro h
  have hparses : sampleNode.parses = true := by decide +kernel
  have hinserted : Run.Along remember (Kept plainJson) (fun _ => none) [.insertNode sampleNode] :=
    ⟨⟨hparses, plainJson_node sampleNode⟩, trivial⟩
  have hholds : (after lengthHash pairHash plainJson ⟨4, 100, by decide⟩
      [.insertNode sampleNode]).Holds lengthHash pairHash (contents [.insertNode sampleNode]) :=
    holds_after hinserted
  have hfound := h ([.insertNode sampleNode] ++ [.reopen]) (List.prefix_refl _) sampleNode.id
  rw [after, contents, Run.run_concat, Run.run_concat] at hfound
  have hlost := hholds.getNode_reopen sampleNode.id
  have hstored : contents [.insertNode sampleNode] sampleNode.id = some sampleNode := by
    simp [contents, remember]
  exact absurd ((Option.some.inj (hlost.symm.trans hfound)).trans hstored)
    (Option.some_ne_none _).symm

end ShardManager

end AresaDb.Distributed
