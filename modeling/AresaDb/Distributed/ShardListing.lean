import AresaDb.Distributed.Shard

/-! # Listing nodes by type over shards

A listing with a limit asks every shard for at most an equal part of the limit, and for one node at
least, and stops once there are enough (`distributed/shard.rs`).  So a shard that has more nodes of
the type than its part may keep some back although the limit is not reached, and a row that a shard
is asked for may not parse: the listing is exact if and only if no shard has more than its part, or
the parts give enough as they are, and every row that is asked for parses (`limit_exact_iff`). -/

namespace AresaDb.Distributed

open ByteOrder Store

namespace ShardManager

/-! ### Facts about each shard -/

/-- Something holds of every shard, by its index and its database. -/
def Each (m : ShardManager) (P : ℕ → LocalStorage → Prop) : Prop :=
  ∀ (i : ℕ) (shard : Shard), m.shards[i]? = some shard → P i shard.storage

section

variable {xx : Bytes → UInt64} {m : ShardManager} {P Q : ℕ → LocalStorage → Prop}

theorem Each.getShardForNode (h : m.Each P) (id : NodeId) :
    P (m.route xx id) (m.getShardForNode xx id).storage :=
  h _ _ (List.getElem?_eq_getElem (m.route_lt xx id))

/-- Replacing the shard of a node. -/
theorem Each.setShard (h : m.Each P) {id : NodeId} {shard : Shard}
    (hself : Q (m.route xx id) shard.storage) (hrest : ∀ i s, i ≠ m.route xx id → P i s → Q i s) :
    (m.setShard xx id shard).Each Q := by
  intro i shard' hi
  rw [ShardManager.setShard, List.getElem?_set] at hi
  split_ifs at hi with hroute hlt
  · obtain rfl := Option.some.inj hi
    rw [← hroute]
    exact hself
  · exact hrest i _ (Ne.symm hroute) (h i shard' hi)

theorem each_openAll {config : ShardConfig} {disk : List LocalStorage}
    {hdisk : disk.length = config.numShards}
    (h : ∀ (i : ℕ) (storage : LocalStorage), disk[i]? = some storage → P i storage) :
    (openAll xx config disk hdisk).Each P := by
  intro i shard hi
  rw [openAll, List.getElem?_mapIdx] at hi
  obtain ⟨storage, hstorage, rfl⟩ := Option.map_eq_some_iff.mp hi
  exact h i storage hstorage

theorem each_new (config : ShardConfig) (h : ∀ i, P i .create) : (new xx config).Each P := by
  refine each_openAll fun i storage hi => ?_
  obtain rfl := (List.mem_replicate.mp (List.mem_of_getElem? hi)).2
  exact h i

theorem Each.reopen (h : m.Each P) : (m.reopen xx).Each P := by
  refine each_openAll fun i storage hi => ?_
  rw [List.getElem?_map] at hi
  obtain ⟨shard, hshard, rfl⟩ := Option.map_eq_some_iff.mp hi
  exact h i shard hshard

end

/-! ### The listing -/

section

variable (m : ShardManager) (nodeType : String)

/-- Ask the shards one after the other, until there are enough nodes. -/
def listShards (perShardLimit limit : Option ℕ) : List Shard → List Node → Option (List Node)
  | [], allNodes => some allNodes
  | shard :: shards, allNodes => do
      let nodes ← shard.storage.getNodesByType nodeType perShardLimit
      let allNodes := allNodes ++ nodes
      match limit with
      | some lim =>
          if lim ≤ allNodes.length then some (allNodes.take lim)
          else listShards perShardLimit limit shards allNodes
      | none => listShards perShardLimit limit shards allNodes

/-- The part of a limit that every shard is asked for. -/
def perShard (limit : Option ℕ) : Option ℕ := limit.map fun l => max (l / m.shards.length) 1

def getNodesByType (limit : Option ℕ) : Option (List Node) :=
  listShards nodeType (m.perShard limit) limit m.shards []

/-- The nodes of a type in a database. -/
def rowsOfType (s : LocalStorage) : List Node :=
  s.nodes.values.filter fun node => node.nodeType = nodeType

/-- The nodes of a type, shard after shard. -/
def nodesOfType : List Node := m.shards.flatMap fun shard => rowsOfType nodeType shard.storage

/-- How many nodes are asked for: all of them without a limit. -/
def asked : Option ℕ → ℕ
  | some l => min l (m.nodesOfType nodeType).length
  | none => (m.nodesOfType nodeType).length

/-- The listing has as many of the nodes of the type as asked for, each once. -/
def ListsExactly (limit : Option ℕ) : Prop :=
  ∃ nodes, m.getNodesByType nodeType limit = some nodes ∧
    (∀ node ∈ nodes, node ∈ m.nodesOfType nodeType) ∧ (nodes.map Node.id).Nodup ∧
    nodes.length = m.asked nodeType limit

/-- Nodes are spread over the shards: each shard lists its rows under their types, and no id is in
two shards. -/
structure Spread : Prop where
  index : ∀ shard ∈ m.shards,
    shard.storage.nodeTypeIndex.Covering shard.storage.nodes Node.nodeType fun _ => True
  ids : ∀ shard ∈ m.shards, ∀ (id : NodeId) (node : Node),
    shard.storage.nodes[id]? = some node → node.id = id
  apart : m.shards.Pairwise fun a b =>
    ∀ id : NodeId, a.storage.nodes[id]? ≠ none → b.storage.nodes[id]? = none

variable {m nodeType}

/-- The rows that a shard is asked for parse, when there are so many nodes of the shards before it
that it is asked: it is the first, or they are fewer than the limit. -/
def AskedParse (given : Shard → List Node) (limit : Option ℕ) (shards : List Shard)
    (n : ℕ) : Prop :=
  ∀ (i : ℕ) (shard : Shard), shards[i]? = some shard →
    (∀ l ∈ limit, i = 0 ∨ n + ((shards.take i).map fun s => (given s).length).sum < l) →
      ∀ node ∈ given shard, node.parses = true

/-- The shards after the first are asked when there are not enough nodes yet. -/
theorem askedParse_cons {given : Shard → List Node} {limit : Option ℕ} {shard : Shard}
    {shards : List Shard} {n : ℕ} :
    AskedParse given limit (shard :: shards) n ↔ (∀ node ∈ given shard, node.parses = true) ∧
      ((∀ l ∈ limit, n + (given shard).length < l) →
        AskedParse given limit shards (n + (given shard).length)) := by
  constructor
  · intro h
    refine ⟨h 0 shard rfl fun _ _ => .inl rfl, fun hfew i next hi hasked => ?_⟩
    refine h (i + 1) next hi fun l hl => .inr ?_
    rw [List.take_succ_cons, List.map_cons, List.sum_cons, ← Nat.add_assoc]
    obtain rfl | hless := hasked l hl
    · exact hfew l hl
    · exact hless
  · rintro ⟨hfirst, hrest⟩ i next hi hasked
    cases i with
    | zero =>
        obtain rfl := Option.some.inj hi
        exact hfirst
    | succ i =>
        have hless : ∀ l ∈ limit,
            n + (given shard).length + ((shards.take i).map fun s => (given s).length).sum < l := by
          intro l hl
          have hl' := (hasked l hl).resolve_left i.succ_ne_zero
          rwa [List.take_succ_cons, List.map_cons, List.sum_cons, ← Nat.add_assoc] at hl'
        exact hrest (fun l hl => (Nat.le_add_right _ _).trans_lt (hless l hl)) i next hi fun l hl =>
          .inr (hless l hl)

/-- The answers of the shards are cut off where they would be when all are asked, and there is no
answer when one of the shards that are asked has none. -/
theorem listShards_eq_some_iff {perShardLimit limit : Option ℕ} {given : Shard → List Node}
    {shards : List Shard} {allNodes nodes : List Node}
    (hgiven : ∀ shard ∈ shards, shard.storage.getNodesByType nodeType perShardLimit =
      readRows Node.parses (given shard))
    (h : ∀ l ∈ limit, shards ≠ [] ∨ allNodes.length ≤ l) :
    listShards nodeType perShardLimit limit shards allNodes = some nodes ↔
      AskedParse given limit shards allNodes.length ∧
        nodes = LocalStorage.takeLimit limit (allNodes ++ shards.flatMap given) := by
  induction shards generalizing allNodes with
  | nil =>
      have hall : LocalStorage.takeLimit limit allNodes = allNodes := by
        cases limit with
        | none => rfl
        | some l => exact List.take_of_length_le ((h l rfl).resolve_left fun hne => hne rfl)
      rw [listShards, List.flatMap_nil, List.append_nil, hall, Option.some_inj, eq_comm]
      exact (and_iff_right fun i shard hi => by simp at hi).symm
  | cons shard shards ih =>
      rw [listShards, hgiven shard List.mem_cons_self, askedParse_cons, List.flatMap_cons,
        ← List.append_assoc, ← List.length_append]
      by_cases hparse : ∀ node ∈ given shard, node.parses = true
      · rw [readRows, if_pos (List.all_eq_true.mpr hparse), Option.bind_eq_bind, Option.bind_some]
        have hrest := @ih (allNodes ++ given shard) fun s hs => hgiven s (List.mem_cons_of_mem _ hs)
        cases limit with
        | none =>
            rw [hrest fun l hl => by cases hl]
            refine and_congr_left fun _ => ⟨fun hasked =>
              ⟨hparse, fun _ => hasked⟩, fun hasked => ?_⟩
            exact hasked.2 fun l hl => by cases hl
        | some l =>
            dsimp only
            split_ifs with hfull
            · rw [LocalStorage.takeLimit, List.take_append_of_le_length hfull,
                Option.some_inj, eq_comm]
              refine (and_iff_right ⟨hparse, fun hfew => ?_⟩).symm
              exact absurd (hfew l rfl) (not_lt.mpr hfull)
            · rw [hrest fun l' hl' => .inr (Option.some.inj hl' ▸ (not_le.mp hfull).le)]
              have hfew : ∀ l' ∈ some l, (allNodes ++ given shard).length < l' := fun l' hl' =>
                Option.some.inj hl' ▸ not_le.mp hfull
              refine and_congr_left fun _ => ⟨fun hasked =>
                ⟨hparse, fun _ => hasked⟩, fun hasked => ?_⟩
              exact hasked.2 hfew
      · have hnone : readRows Node.parses (given shard) = none :=
          if_neg fun hall => hparse (List.all_eq_true.mp hall)
        rw [hnone, Option.bind_eq_bind, Option.bind_none]
        simp [hparse]

variable (m nodeType) in
/-- The rows of the type that a shard is asked for. -/
def givenBy (limit : Option ℕ) (shard : Shard) : List Node :=
  LocalStorage.takeLimit (m.perShard limit) (rowsOfType nodeType shard.storage)

theorem Spread.getNodesByType_shard (h : m.Spread) {shard : Shard} (hshard : shard ∈ m.shards)
    (limit : Option ℕ) : shard.storage.getNodesByType nodeType (m.perShard limit) =
      readRows Node.parses (m.givenBy nodeType limit shard) := by
  rw [LocalStorage.getNodesByType, LocalStorage.rowsOfType,
    (h.index shard hshard).filterMap_get nodeType]
  rfl

theorem Spread.nodup_nodesOfType (h : m.Spread) : ((m.nodesOfType nodeType).map Node.id).Nodup := by
  have hrow : ∀ shard ∈ m.shards, ∀ node ∈ rowsOfType nodeType shard.storage,
      shard.storage.nodes[node.id]? = some node := by
    intro shard hshard node hnode
    obtain ⟨id, hid⟩ := (OrdMap.mem_values _ _).mp (List.mem_filter.mp hnode).1
    rw [h.ids shard hshard id node hid]
    exact hid
  rw [nodesOfType, List.map_flatMap, List.nodup_flatMap]
  refine ⟨fun shard hshard => ?_, ?_⟩
  · refine (OrdMap.nodup_values_map _ fun id id' node node' hid hid' heq => ?_).sublist
      (List.filter_sublist.map Node.id)
    rw [← h.ids shard hshard id node hid, heq, h.ids shard hshard id' node' hid']
  · refine h.apart.imp_of_mem fun {a b} ha hb hapart id hid hid' => ?_
    obtain ⟨node, hnode, rfl⟩ := List.mem_map.mp hid
    obtain ⟨node', hnode', heq⟩ := List.mem_map.mp hid'
    have hb' := hrow b hb node' hnode'
    rw [heq, hapart node.id (by rw [hrow a ha node hnode]; exact Option.some_ne_none _)] at hb'
    cases hb'

variable (m nodeType) in
/-- Every row parses that a listing asks a shard for. -/
def ReadsParse (limit : Option ℕ) : Prop := AskedParse (m.givenBy nodeType limit) limit m.shards 0

variable (m nodeType) in
/-- What a listing has when it has an answer: the first ones of what each shard gives. -/
def listed (limit : Option ℕ) : List Node :=
  LocalStorage.takeLimit limit (m.shards.flatMap (m.givenBy nodeType limit))

theorem Spread.getNodesByType_eq_some_iff (h : m.Spread) {limit : Option ℕ} {nodes : List Node} :
    m.getNodesByType nodeType limit = some nodes ↔
      m.ReadsParse nodeType limit ∧ nodes = m.listed nodeType limit := by
  have hne : m.shards ≠ [] := by
    refine List.ne_nil_of_length_pos ?_
    rw [m.hlength]
    exact m.config.hshards
  exact listShards_eq_some_iff (fun shard hshard => h.getNodesByType_shard hshard limit)
    fun _ _ => .inl hne

/-! ### Limits -/

theorem sum_min_le (part : ℕ) (l : List ℕ) : (l.map (min part)).sum ≤ l.sum := by
  induction l with
  | nil => exact le_rfl
  | cons n l ih =>
      rw [List.map_cons, List.sum_cons, List.sum_cons]
      omega

/-- Nothing is cut off exactly when nothing is over. -/
theorem sum_min_eq_iff (part : ℕ) (l : List ℕ) :
    (l.map (min part)).sum = l.sum ↔ ∀ n ∈ l, n ≤ part := by
  induction l with
  | nil => simp
  | cons n l ih =>
      have hle := sum_min_le part l
      rw [List.map_cons, List.sum_cons, List.sum_cons, List.forall_mem_cons, ← ih]
      omega

variable (m nodeType) in
/-- No shard has more nodes of the type than its part of the limit, or the parts are enough. -/
def WithinParts (l : ℕ) : Prop :=
  let part := max (l / m.shards.length) 1
  let counts := m.shards.map fun shard => (rowsOfType nodeType shard.storage).length
  (∀ n ∈ counts, n ≤ part) ∨ l ≤ (counts.map (min part)).sum

theorem listed_sublist (limit : Option ℕ) :
    (m.listed nodeType limit).Sublist (m.nodesOfType nodeType) :=
  (LocalStorage.takeLimit_sublist limit _).trans
    (.flatMap_right _ fun _ _ => LocalStorage.takeLimit_sublist _ _)

/-- The number of nodes that are listed. -/
theorem length_listed (l : ℕ) : (m.listed nodeType (some l)).length =
    min l ((m.shards.map fun shard => (rowsOfType nodeType shard.storage).length).map
      (min (max (l / m.shards.length) 1))).sum := by
  rw [listed, LocalStorage.takeLimit, List.length_take, List.length_flatMap, List.map_map]
  congr 2
  exact List.map_congr_left fun shard _ => List.length_take

/-- A listing has as many nodes as asked for when no limit keeps any of them back. -/
theorem length_listed_iff (limit : Option ℕ) :
    (m.listed nodeType limit).length = m.asked nodeType limit ↔
      ∀ l ∈ limit, m.WithinParts nodeType l := by
  cases limit with
  | none =>
      refine iff_of_true ?_ fun l hl => by cases hl
      rfl
  | some l =>
      have htotal : (m.nodesOfType nodeType).length =
          (m.shards.map fun shard => (rowsOfType nodeType shard.storage).length).sum :=
        List.length_flatMap
      have hle := sum_min_le (max (l / m.shards.length) 1)
        (m.shards.map fun shard => (rowsOfType nodeType shard.storage).length)
      have hlength : (m.listed nodeType (some l)).length = _ := length_listed l
      simp only [Option.mem_some_iff, forall_eq']
      rw [WithinParts, asked, ← sum_min_eq_iff]
      omega

end

/-- A listing is exact if and only if every row that it asks a shard for parses, and, when it has a
limit, no shard has more nodes of the type than its part of the limit, or the parts are enough. -/
theorem limit_exact_iff (m : ShardManager) (h : m.Spread) (nodeType : String) (limit : Option ℕ) :
    m.ListsExactly nodeType limit ↔
      m.ReadsParse nodeType limit ∧ ∀ l ∈ limit, m.WithinParts nodeType l := by
  rw [← length_listed_iff]
  constructor
  · rintro ⟨nodes, hnodes, -, -, hlength⟩
    obtain ⟨hparse, rfl⟩ := h.getNodesByType_eq_some_iff.mp hnodes
    exact ⟨hparse, hlength⟩
  · rintro ⟨hparse, hlength⟩
    refine ⟨_, h.getNodesByType_eq_some_iff.mpr ⟨hparse, rfl⟩, fun node hnode => ?_, ?_, hlength⟩
    · exact (listed_sublist limit).subset hnode
    · exact h.nodup_nodesOfType.sublist ((listed_sublist limit).map Node.id)

/-! ### Managers whose nodes are spread -/

/-- A database lists its rows under their types, and has only rows of nodes that are sent to it. -/
structure Placed (route : NodeId → ℕ) (i : ℕ) (s : LocalStorage) : Prop where
  index : s.nodeTypeIndex.Covering s.nodes Node.nodeType fun id => s.nodes[id]? ≠ none
  rows : ∀ (id : NodeId) (node : Node), s.nodes[id]? = some node → node.id = id ∧ route id = i

section

variable {xx : Bytes → UInt64} {sip : Bytes → UInt64 × UInt64} {J : Serde} {m : ShardManager}
  {route : NodeId → ℕ} {i : ℕ} {s : LocalStorage}

theorem Placed.insertNode (h : Placed route i s) {node : Node} (hroute : route node.id = i)
    (hnew : s.nodes[node.id]? = none) : Placed route i (s.insertNode J node) := by
  obtain ⟨hcovers, hsound, hused⟩ := h.index.insert (not_not_intro hnew) (J.node node)
  refine ⟨⟨hcovers, hsound, fun k id he => ?_⟩, fun id row hrow => ?_⟩
  · change (s.nodes.insert node.id (J.node node))[id]? ≠ none
    rw [OrdMap.get_insert]
    split_ifs with hid
    · exact Option.some_ne_none _
    · exact (hused k id he).resolve_right (Ne.symm hid)
  · change (s.nodes.insert node.id (J.node node))[id]? = some row at hrow
    rw [OrdMap.get_insert] at hrow
    split_ifs at hrow with hid
    · obtain rfl := Option.some.inj hrow
      exact ⟨hid, hid ▸ hroute⟩
    · exact h.rows id row hrow

theorem Placed.updateNode (h : Placed route i s) {now : Timestamp} {id : NodeId}
    {properties : Value} {s' : LocalStorage} (hs' : s.updateNode J now id properties = some s') :
    Placed route i s' := by
  obtain ⟨node, hread, rfl⟩ := Option.map_eq_some_iff.mp hs'
  obtain ⟨hnode, -⟩ := Option.filter_eq_some_iff.mp hread
  -- the new row has the type and the id of the old one
  have hold : ∀ (j : NodeId) (row : Node),
      (s.nodes.insert id (J.node (LocalStorage.touchNode now node properties)))[j]? = some row →
        ∃ row', s.nodes[j]? = some row' ∧ row'.nodeType = row.nodeType ∧ row'.id = row.id := by
    intro j row hrow
    rw [OrdMap.get_insert] at hrow
    split_ifs at hrow with hj
    · obtain rfl := Option.some.inj hrow
      exact ⟨node, hj ▸ hnode, rfl, rfl⟩
    · exact ⟨row, hrow, rfl, rfl⟩
  refine ⟨⟨fun j row hrow => ?_, fun k j row he hrow => ?_, fun k j he => ?_⟩, fun j row hrow => ?_⟩
  · obtain ⟨row', hrow', htype, -⟩ := hold j row hrow
    rw [← htype]
    exact h.index.covers j row' hrow'
  · obtain ⟨row', hrow', htype, -⟩ := hold j row hrow
    rw [← htype]
    exact h.index.sound k j row' he hrow'
  · change (s.nodes.insert id _)[j]? ≠ none
    rw [OrdMap.get_insert]
    split_ifs
    · exact Option.some_ne_none _
    · exact h.index.used k j he
  · obtain ⟨row', hrow', -, hid⟩ := hold j row hrow
    rw [← hid]
    exact h.rows j row' hrow'

theorem Placed.removeNode (h : Placed route i s) (id : NodeId) :
    Placed route i (s.removeNode id) := by
  have hrow : ∀ (j : NodeId) (row : Node), (s.removeNode id).nodes[j]? = some row →
      j ≠ id ∧ s.nodes[j]? = some row := by
    intro j row hrow
    rw [LocalStorage.nodes_removeNode, OrdMap.get_erase] at hrow
    split_ifs at hrow with hj
    exact ⟨Ne.symm hj, hrow⟩
  refine ⟨⟨fun j row hj => ?_, fun k j row he hj => ?_, fun k j he => ?_⟩, fun j row hj => ?_⟩
  · obtain ⟨hne, hj⟩ := hrow j row hj
    exact LocalStorage.mem_typeIndex_removeNode.2 hne (h.index.covers j row hj)
  · exact h.index.sound k j row (LocalStorage.mem_typeIndex_removeNode.1 he) (hrow j row hj).2
  · have he' := LocalStorage.mem_typeIndex_removeNode.1 he
    rw [LocalStorage.nodes_removeNode, OrdMap.get_erase]
    split_ifs with hj
    · -- the one entry of the node was removed
      subst hj
      obtain ⟨node, hnode⟩ := Option.ne_none_iff_exists'.mp (h.index.used k id he')
      rw [LocalStorage.removeNode, LocalStorage.deleteEdgesOf_eq] at he
      dsimp only at he
      rw [hnode] at he
      refine absurd ?_ (Multimap.mem_remove.mp he).1
      rw [h.index.sound k id node he' hnode]
    · exact h.index.used k j he'
  · exact h.rows j row (hrow j row hj).2

/-- The ring is that of the configuration, and every shard is placed. -/
def PlacedAll (xx : Bytes → UInt64) (m : ShardManager) : Prop :=
  m.ring = m.config.ring xx ∧ m.Each (Placed (m.route xx))

/-- A node is only inserted when its id is free. -/
def FreeId (xx : Bytes → UInt64) (m : ShardManager) : ShardOp → Prop
  | .insertNode node => (m.getShardForNode xx node.id).storage.nodes[node.id]? = none
  | _ => True

theorem placedAll_new (config : ShardConfig) : (new xx config).PlacedAll xx := by
  refine ⟨rfl, each_new config fun i => ⟨.empty _ _, fun id node hnode => ?_⟩⟩
  simp [LocalStorage.create] at hnode

theorem PlacedAll.step (h : m.PlacedAll xx) {op : ShardOp} (hop : FreeId xx m op) :
    (m.step xx sip J op).PlacedAll xx := by
  obtain ⟨hring, hplaced⟩ := h
  have hset : ∀ (id : NodeId) (shard : Shard), Placed (m.route xx) (m.route xx id) shard.storage →
      (m.setShard xx id shard).PlacedAll xx :=
    fun id shard hshard => ⟨hring, hplaced.setShard hshard fun _ _ _ hi => hi⟩
  cases op with
  | insertNode node => exact hset _ _ ((hplaced.getShardForNode node.id).insertNode rfl hop)
  | updateNode now id properties =>
      rw [ShardManager.step, ShardManager.updateNode]
      cases hupdate : (m.getShardForNode xx id).storage.updateNode J now id properties with
      | none => exact ⟨hring, hplaced⟩
      | some s' => exact hset _ _ ((hplaced.getShardForNode id).updateNode hupdate)
  | deleteNode id =>
      rw [ShardManager.step, ShardManager.deleteNode, LocalStorage.deleteNode]
      split_ifs
      · exact hset _ _ ((hplaced.getShardForNode id).removeNode id)
      · exact ⟨hring, hplaced⟩
  | insertEdge edge =>
      obtain ⟨hindex, hrows⟩ := hplaced.getShardForNode edge.from_
      exact hset _ _ ⟨hindex, hrows⟩
  | reopen =>
      have hroute : (m.reopen xx).route xx = m.route xx := by
        funext id
        rw [route, route, hring]
        rfl
      refine ⟨rfl, ?_⟩
      rw [ShardManager.step, hroute]
      exact hplaced.reopen

theorem PlacedAll.spread (h : m.PlacedAll xx) : m.Spread := by
  obtain ⟨-, hplaced⟩ := h
  have hshard : ∀ shard ∈ m.shards, ∃ i, Placed (m.route xx) i shard.storage := by
    intro shard hshard
    obtain ⟨i, hi⟩ := List.mem_iff_getElem?.mp hshard
    exact ⟨i, hplaced i shard hi⟩
  refine ⟨fun shard hmem => ?_, fun shard hmem id node hnode => ?_, ?_⟩
  · obtain ⟨i, ⟨hcovers, hsound, -⟩, -⟩ := hshard shard hmem
    exact ⟨hcovers, hsound, fun _ _ _ => trivial⟩
  · obtain ⟨i, hi⟩ := hshard shard hmem
    exact (hi.rows id node hnode).1
  · refine List.pairwise_iff_getElem.mpr fun i j hi hj hij id hid => ?_
    obtain ⟨node, hnode⟩ := Option.ne_none_iff_exists'.mp hid
    by_contra hid'
    obtain ⟨node', hnode'⟩ := Option.ne_none_iff_exists'.mp hid'
    have hroute := ((hplaced i _ (List.getElem?_eq_getElem hi)).rows id node hnode).2
    have hroute' := ((hplaced j _ (List.getElem?_eq_getElem hj)).rows id node' hnode').2
    omega

/-- The nodes of a manager are spread over its shards after every run that inserts nodes under free
ids. -/
theorem spread_after {config : ShardConfig} {ops : List ShardOp}
    (h : Run.Along (step xx sip J) (FreeId xx) (new xx config) ops) :
    (after xx sip J config ops).Spread :=
  (h.invariant (fun _ _ hm hop => PlacedAll.step hm hop) (placedAll_new config)).spread

end

/-- Two nodes of one type in one of two shards. -/
def skewed : List ShardOp :=
  [.insertNode sampleNode, .insertNode { sampleNode with id := ⟨8⟩ }]

theorem skewed_free : Run.Along (step lengthHash pairHash plainJson) (FreeId lengthHash)
    (new lengthHash ⟨2, 1, by decide⟩) skewed :=
  ⟨Option.isNone_iff_eq_none.mp (by decide +kernel),
    Option.isNone_iff_eq_none.mp (by decide +kernel), trivial⟩

theorem limit_exact_iff_skewed :
    (after lengthHash pairHash plainJson ⟨2, 1, by decide⟩ skewed).ListsExactly "user" (some 2) ↔
      (after lengthHash pairHash plainJson ⟨2, 1, by decide⟩ skewed).ReadsParse "user" (some 2) ∧
        ∀ l ∈ some 2,
          (after lengthHash pairHash plainJson ⟨2, 1, by decide⟩ skewed).WithinParts "user" l :=
  limit_exact_iff _ (spread_after skewed_free) "user" (some 2)

/-- One of the two nodes is kept back. -/
theorem second_kept_back :
    ¬ (after lengthHash pairHash plainJson ⟨2, 1, by decide⟩ skewed).ListsExactly "user"
        (some 2) := by
  rintro ⟨nodes, hnodes, -, -, hlength⟩
  have hone : ((after lengthHash pairHash plainJson ⟨2, 1, by decide⟩ skewed).getNodesByType "user"
      (some 2)).map List.length = some 1 := by decide +kernel
  have htwo : (after lengthHash pairHash plainJson ⟨2, 1, by decide⟩ skewed).asked "user"
      (some 2) = 2 := by decide +kernel
  rw [hnodes, Option.map_some, hlength, htwo] at hone
  exact absurd hone (by decide)

end ShardManager

end AresaDb.Distributed
