import AresaDb.Store.Tiered

/-! # The copies of a node

A node has up to five copies: its index record, the row of the older layout, the local payload, the
cached payload and the object in the bucket (`Copies`).  Every operation of the tiered storage on a
node changes the copies of that node and of no other (`Changes`), and here is what each of them
makes of the five. -/

namespace AresaDb.Store

/-- The copies of a node. -/
structure Copies where
  index : Option NodeIndex
  row : Option Node
  payload : Option Props
  cached : Option Props
  object : Option Props

namespace Copies

variable (J : Serde) (c : Copies)

/-- The index record, else one made from the older row, which is parsed. -/
def getNodeIndex : Option (Option NodeIndex) :=
  match c.index with
  | some index => some (some index)
  | none => (readRow Node.parses c.row).map fun row => row.map (LocalStorage.rowIndex J)

/-- The local payload, else that of the older row, which is parsed. -/
def getPayload : Option Props :=
  match c.payload with
  | some payload => some payload
  | none => (c.row.filter Node.parses).map (LocalStorage.rowPayload J)

/-- The payload a read finds. -/
def find (index : NodeIndex) : Option Props :=
  match c.cached with
  | some payload => some payload
  | none =>
      match index.payloadLocation with
      | .local => c.getPayload J
      | .cloud => c.object

end Copies

namespace TieredStorage

/-- The copies of a node in the storage. -/
def copies (s : TieredStorage) (id : NodeId) : Copies where
  index := s.local_.nodeIndexes[id]?
  row := s.local_.nodes[id]?
  payload := s.local_.nodePayloads[id]?
  cached := s.cache[id]?
  object := s.fetchCloudPayload id

theorem getNodeIndex_eq (J : Serde) (s : TieredStorage) (id : NodeId) :
    s.local_.getNodeIndex J id = (s.copies id).getNodeIndex J := rfl

theorem getPayload_eq (J : Serde) (s : TieredStorage) (id : NodeId) :
    (s.local_.getPayload J id).join = (s.copies id).getPayload J := by
  unfold LocalStorage.getPayload Copies.getPayload copies readRow
  cases s.local_.nodePayloads[id]? with
  | some payload => rfl
  | none =>
      cases s.local_.nodes[id]? with
      | none => rfl
      | some row => by_cases hrow : row.parses <;> simp [hrow]

end TieredStorage

/-- An index that cannot be created leaves the storage. -/
theorem TieredStorage.createIndex_getD (J : Serde) (s : TieredStorage) (t f : String) :
    (s.createIndex J t f).getD s =
      { s with local_ := ((s.local_.createPropertyIndex J t f).map Prod.snd).getD s.local_ } := by
  unfold createIndex
  cases s.local_.createPropertyIndex J t f <;> rfl

theorem TieredStorage.createFulltextIndex_getD (U : Unicode) (s : TieredStorage) (t f : String) :
    (s.createFulltextIndex U t f).getD s =
      { s with local_ := ((s.local_.createFulltextIndex U t f).map Prod.snd).getD s.local_ } := by
  unfold createFulltextIndex
  cases s.local_.createFulltextIndex U t f <;> rfl

/-! ### What an operation changes -/

/-- The copies of one node change to `c`; bucket and configuration stay what they are. -/
structure Changes (s s' : TieredStorage) (id : NodeId) (c : Copies) : Prop where
  at_id : s'.copies id = c
  off_id : ∀ id', id ≠ id' → s'.copies id' = s.copies id'
  bucket : s'.bucket.isSome = s.bucket.isSome
  config : s'.config = s.config

namespace Changes

variable {s s₁ s₂ : TieredStorage} {id : NodeId} {c₁ c₂ : Copies}

theorem refl (s : TieredStorage) (id : NodeId) : Changes s s id (s.copies id) :=
  ⟨rfl, fun _ _ => rfl, rfl, rfl⟩

theorem trans (h₁ : Changes s s₁ id c₁) (h₂ : Changes s₁ s₂ id c₂) : Changes s s₂ id c₂ where
  at_id := h₂.at_id
  off_id id' hne := (h₂.off_id id' hne).trans (h₁.off_id id' hne)
  bucket := h₂.bucket.trans h₁.bucket
  config := h₂.config.trans h₁.config

end Changes

namespace TieredStorage

variable (J : Serde) (U : Unicode) (s : TieredStorage) (id : NodeId) (p : Props)

theorem changes_cachePut :
    Changes s (s.cachePut id p) id { s.copies id with cached := some p } := by
  refine ⟨?_, fun id' hne => ?_, rfl, rfl⟩
  · simp [copies, cachePut, fetchCloudPayload]
  · simp only [copies, cachePut, fetchCloudPayload, OrdMap.get_insert_of_ne _ _ hne]

theorem changes_cacheRemove :
    Changes s (s.cacheRemove id) id { s.copies id with cached := none } := by
  refine ⟨?_, fun id' hne => ?_, rfl, rfl⟩
  · simp [copies, cacheRemove, fetchCloudPayload]
  · simp only [copies, cacheRemove, fetchCloudPayload, OrdMap.get_erase_of_ne _ hne]

theorem changes_bucketPut :
    Changes s (s.bucketPut id p) id
      { s.copies id with object := if s.bucket.isSome then some p else none } := by
  refine ⟨?_, fun id' hne => ?_, ?_, rfl⟩
  · cases hb : s.bucket <;> simp [copies, bucketPut, fetchCloudPayload, hb]
  · cases hb : s.bucket <;>
      simp [copies, bucketPut, fetchCloudPayload, hb, OrdMap.get_insert_of_ne _ _ hne]
  · simp [bucketPut]

theorem changes_bucketDelete :
    Changes s (s.bucketDelete id) id { s.copies id with object := none } := by
  refine ⟨?_, fun id' hne => ?_, ?_, rfl⟩
  · cases hb : s.bucket <;> simp [copies, bucketDelete, fetchCloudPayload, hb]
  · cases hb : s.bucket <;>
      simp [copies, bucketDelete, fetchCloudPayload, hb, OrdMap.get_erase_of_ne _ hne]
  · simp [bucketDelete]

/-- The object after a write that may push its payload through. -/
def pushedObject (object : Option Props) : Option Props :=
  if s.config.writeThrough then if s.bucket.isSome then some p else none else object

theorem changes_pushThrough :
    Changes s (s.pushThrough id p) id
      { s.copies id with object := s.pushedObject p (s.copies id).object } := by
  unfold pushThrough pushedObject
  split_ifs with hthrough hbucket
  · have hput := changes_bucketPut s id p
    rwa [if_pos hbucket] at hput
  · have hput := changes_bucketPut s id p
    rwa [if_neg hbucket] at hput
  · exact .refl s id

/-- The node tables of two local storages agree off the id. -/
def LocalOff (id : NodeId) (l l' : LocalStorage) : Prop :=
  ∀ i : NodeId, id ≠ i → l'.nodeIndexes[i]? = l.nodeIndexes[i]? ∧ l'.nodes[i]? = l.nodes[i]? ∧
    l'.nodePayloads[i]? = l.nodePayloads[i]?

theorem changes_local {l : LocalStorage} (h : LocalOff id s.local_ l) :
    Changes s { s with local_ := l } id
      { s.copies id with
        index := l.nodeIndexes[id]?, row := l.nodes[id]?, payload := l.nodePayloads[id]? } := by
  refine ⟨rfl, fun i hne => ?_, rfl, rfl⟩
  obtain ⟨hindex, hrow, hpayload⟩ := h i hne
  simp only [copies, hindex, hrow, hpayload]
  rfl

theorem changes_insertNode (node : Node) :
    Changes s (s.insertNode J U node) node.id
      { index := some (.fromNode node .local (J.size node.properties))
        row := (s.copies node.id).row
        payload := some (J.props node.properties)
        cached := some (J.props node.properties)
        object := s.pushedObject (J.props node.properties) (s.copies node.id).object } := by
  let payload := J.props node.properties
  let listed := (s.local_.insertNodeTiered node.id (.fromNode node .local (J.size node.properties))
    payload).updatePropertyIndexes J node.id node.nodeType node.properties
  let l := listed.updateFulltextIndex U node.id node.nodeType node.properties
  -- The indexes have their own tables.
  obtain ⟨m, hfulltext⟩ :=
    LocalStorage.updateFulltextIndex_eq U listed node.id node.nodeType node.properties
  have hl : l = _ := hfulltext
  have hoff : LocalOff node.id s.local_ l := by
    intro i hne
    rw [hl]
    exact ⟨OrdMap.get_insert_of_ne _ _ hne, rfl, OrdMap.get_insert_of_ne _ _ hne⟩
  have hlocal := changes_local s node.id hoff
  have hpush := changes_pushThrough { s with local_ := l } node.id payload
  rw [hlocal.at_id] at hpush
  have hcache := changes_cachePut (pushThrough { s with local_ := l } node.id payload)
    node.id payload
  rw [hpush.at_id] at hcache
  have hall := hlocal.trans (hpush.trans hcache)
  have hindex : l.nodeIndexes[node.id]? =
      some (.fromNode node .local (J.size node.properties)) := by
    rw [hl]
    exact OrdMap.get_insert_self _ _ _
  have hrow : l.nodes[node.id]? = (s.copies node.id).row := by
    rw [hl]
    rfl
  have hpayload : l.nodePayloads[node.id]? = some payload := by
    rw [hl]
    exact OrdMap.get_insert_self _ _ _
  rw [hindex, hrow, hpayload] at hall
  exact hall

/-- A read finds a payload and parses it; it leaves a copy in the cache. -/
theorem resolvePayload_find {index : NodeIndex} (h : (s.copies id).find J index = some p) :
    ∃ s', s.resolvePayload J id index = (if parses p then some (p, s') else none) ∧
      s'.local_ = s.local_ ∧ Changes s s' id { s.copies id with cached := some p } := by
  unfold Copies.find at h
  unfold resolvePayload
  have hcached : s.cache[id]? = (s.copies id).cached := rfl
  rw [hcached]
  cases hc : (s.copies id).cached with
  | some q =>
      rw [hc] at h
      obtain rfl := Option.some.inj h
      refine ⟨s, rfl, rfl, ?_⟩
      rw [← hc]
      exact .refl s id
  | none =>
      rw [hc] at h
      refine ⟨s.cachePut id p, ?_, rfl, changes_cachePut s id p⟩
      cases hloc : index.payloadLocation with
      | «local» =>
          simp only [hloc] at h ⊢
          rw [getPayload_eq, h]
          split_ifs with hp <;> simp [hp]
      | cloud =>
          simp only [hloc] at h ⊢
          rw [show s.fetchCloudPayload id = some p from h]
          split_ifs with hp <;> simp [hp]

theorem resolvePayload_eq {index : NodeIndex} (h : (s.copies id).find J index = some p)
    (hp : parses p = true) :
    ∃ s', s.resolvePayload J id index = some (p, s') ∧ s'.local_ = s.local_ ∧
      Changes s s' id { s.copies id with cached := some p } := by
  obtain ⟨s', hres, hs'⟩ := resolvePayload_find J s id p h
  exact ⟨s', hres.trans (if_pos hp), hs'⟩

/-- What is read parses. -/
theorem parses_of_resolvePayload {index : NodeIndex} {s' : TieredStorage}
    (h : s.resolvePayload J id index = some (p, s')) : parses p = true := by
  unfold resolvePayload at h
  split at h
  · split_ifs at h with hp
    obtain ⟨rfl, -⟩ := Prod.mk.inj (Option.some.inj h)
    exact hp
  · obtain ⟨q, hq, heq⟩ := Option.map_eq_some_iff.mp h
    obtain ⟨rfl, -⟩ := Prod.mk.inj heq
    exact (Option.filter_eq_some_iff.mp hq).2

/-- An update merges into the payload that it finds, if both the old and the new one parse. -/
theorem updateNode_eq (now : Timestamp) (v : Value) {index : NodeIndex}
    (hindex : (s.copies id).getNodeIndex J = some (some index))
    (hp : (s.copies id).find J index = some p) :
    ∃ s', s.updateNode J now id v =
        (if parses p && parses (mergeProps p v) then
          some ((updatedIndex J now index (mergeProps p v)).toNode id (mergeProps p v), s')
        else none) ∧ Changes s s' id
      { index := some (updatedIndex J now index (mergeProps p v))
        row := some (J.node ((updatedIndex J now index (mergeProps p v)).toNode id
          (J.props (mergeProps p v))))
        payload := some (J.props (mergeProps p v))
        cached := some (J.props (mergeProps p v))
        object := s.pushedObject (J.props (mergeProps p v)) (s.copies id).object } := by
  obtain ⟨s₁, hres, hlocal, hread⟩ := resolvePayload_find J s id p hp
  let stored := J.props (mergeProps p v)
  let l := s₁.local_.writeNodeTiered J id (updatedIndex J now index (mergeProps p v)) stored
  have hwritten : s₁.local_.updateNodeTiered J id
    (updatedIndex J now index (mergeProps p v)) stored =
      if parses (mergeProps p v) then some l else none := by
    unfold LocalStorage.updateNodeTiered
    rw [J.parses_props]
  refine ⟨(cachePut { s₁ with local_ := l } id stored).pushThrough id stored, ?_, ?_⟩
  · unfold updateNode
    rw [getNodeIndex_eq, hindex]
    simp only [Option.join_some, Option.bind_eq_bind, Option.bind_some, hres]
    by_cases hold : parses p = true
    · rw [if_pos hold, hold, Bool.true_and, Option.bind_some, hwritten]
      split_ifs <;> rfl
    · rw [if_neg hold, Bool.eq_false_of_not_eq_true hold]
      rfl
  have hoff : LocalOff id s₁.local_ l := fun i hne =>
    ⟨OrdMap.get_insert_of_ne _ _ hne, OrdMap.get_insert_of_ne _ _ hne,
      OrdMap.get_insert_of_ne _ _ hne⟩
  have hwrite := changes_local s₁ id hoff
  rw [hread.at_id] at hwrite
  have hcache := changes_cachePut { s₁ with local_ := l } id stored
  rw [hwrite.at_id] at hcache
  have hpush := changes_pushThrough (cachePut { s₁ with local_ := l } id stored) id stored
  rw [hcache.at_id] at hpush
  have hall := hread.trans (hwrite.trans (hcache.trans hpush))
  simp only [l, LocalStorage.writeNodeTiered, OrdMap.get_insert_self] at hall
  have hpushed : ∀ o, pushedObject (cachePut { s₁ with local_ := l } id stored) stored o =
      s.pushedObject stored o := by
    intro o
    have hb : (cachePut { s₁ with local_ := l } id stored).bucket.isSome = s.bucket.isSome :=
      hread.bucket
    have hc : (cachePut { s₁ with local_ := l } id stored).config = s.config := hread.config
    unfold pushedObject
    rw [hb, hc]
  rw [← hpushed]
  exact hall

/-- The first part of a deletion. -/
theorem changes_dropCopies :
    Changes s (s.dropCopies id) id { s.copies id with cached := none, object := none } := by
  have hremove := changes_cacheRemove s id
  have hdelete := changes_bucketDelete (s.cacheRemove id) id
  rw [hremove.at_id] at hdelete
  exact hremove.trans hdelete

/-- A deletion fails on a row that stands for the index record and does not parse. -/
theorem deleteNode_eq :
    ∃ s', s.deleteNode id =
        (if (s.copies id).index.isSome || (s.copies id).row.all Node.parses then some s'
          else none) ∧
      Changes s s' id ⟨none, none, none, none, none⟩ := by
  let gone := s.dropCopies id
  refine ⟨{ gone with local_ := gone.local_.removeNodeTiered id }, ?_, ?_⟩
  · unfold deleteNode LocalStorage.deleteNodeTiered
    have hparses : (s.dropCopies id).local_.recordParses id =
        ((s.copies id).index.isSome || (s.copies id).row.all Node.parses) := rfl
    rw [hparses]
    split_ifs <;> rfl
  have htables : (gone.local_.removeNodeTiered id).nodeIndexes = s.local_.nodeIndexes.erase id ∧
      (gone.local_.removeNodeTiered id).nodes = s.local_.nodes.erase id ∧
      (gone.local_.removeNodeTiered id).nodePayloads = s.local_.nodePayloads.erase id := by
    unfold LocalStorage.removeNodeTiered
    rw [LocalStorage.deleteEdgesOf_eq]
    exact ⟨rfl, rfl, rfl⟩
  have hoff : LocalOff id gone.local_ (gone.local_.removeNodeTiered id) := by
    intro i hne
    rw [htables.1, htables.2.1, htables.2.2]
    exact ⟨OrdMap.get_erase_of_ne _ hne, OrdMap.get_erase_of_ne _ hne, OrdMap.get_erase_of_ne _ hne⟩
  have hdrop := changes_dropCopies s id
  have hlocal := changes_local gone id hoff
  rw [hdrop.at_id, htables.1, htables.2.1, htables.2.2] at hlocal
  simp only [OrdMap.get_erase_self] at hlocal
  exact hdrop.trans hlocal

theorem setLocation_eq (location : PayloadLocation) {index : Option NodeIndex}
    (hindex : (s.copies id).getNodeIndex J = some index) :
    ∃ s', s.setLocation J id location = some s' ∧ Changes s s' id
      { s.copies id with
        index := index.map fun index => { index with payloadLocation := location } } := by
  unfold setLocation
  rw [getNodeIndex_eq, hindex]
  cases index with
  | some index =>
      have hoff : LocalOff id s.local_
          (s.local_.updateNodeIndex id { index with payloadLocation := location }) :=
        fun i hne => ⟨OrdMap.get_insert_of_ne _ _ hne, rfl, rfl⟩
      have hlocal := changes_local s id hoff
      simp only [LocalStorage.updateNodeIndex, OrdMap.get_insert_self] at hlocal
      exact ⟨_, rfl, hlocal⟩
  | none =>
      -- No record is made from nothing.
      have hnone : (s.copies id).index = none := by
        unfold Copies.getNodeIndex at hindex
        cases hi : (s.copies id).index with
        | none => rfl
        | some index =>
            rw [hi] at hindex
            cases hindex
      have hsame : { s.copies id with index := none } = s.copies id := by rw [← hnone]
      rw [Option.map_none, hsame]
      exact ⟨s, rfl, .refl s id⟩

theorem evictToCloud_eq (hbucket : s.bucket.isSome = true)
    (hp : (s.copies id).getPayload J = some p) {index : Option NodeIndex}
    (hindex : (s.copies id).getNodeIndex J = some index) :
    ∃ s', s.evictToCloud J id = some s' ∧ Changes s s' id
      { index := index.map fun index => { index with payloadLocation := .cloud }
        row := (s.copies id).row
        payload := none
        cached := some p
        object := some p } := by
  have hput := changes_bucketPut s id p
  rw [if_pos hbucket] at hput
  have hagain : ((s.bucketPut id p).copies id).getNodeIndex J = some index := by
    rw [hput.at_id]
    exact hindex
  obtain ⟨moved, hmoved, hset⟩ := setLocation_eq J (s.bucketPut id p) id .cloud hagain
  rw [hput.at_id] at hset
  unfold evictToCloud
  rw [if_pos hbucket, getPayload_eq, hp]
  simp only [Option.bind_eq_bind, Option.bind_some, hmoved, Option.pure_def]
  refine ⟨_, rfl, ?_⟩
  have hoff : LocalOff id moved.local_ (moved.local_.deletePayload id) :=
    fun i hne => ⟨rfl, rfl, OrdMap.get_erase_of_ne _ hne⟩
  have hlocal := changes_local moved id hoff
  have hcache := changes_cachePut { moved with local_ := moved.local_.deletePayload id } id p
  rw [hlocal.at_id, hset.at_id] at hcache
  have hcopies : moved.copies id = _ := hset.at_id
  have hindex' : moved.local_.nodeIndexes[id]? = _ := congrArg Copies.index hcopies
  have hrow : moved.local_.nodes[id]? = _ := congrArg Copies.row hcopies
  have hall := hput.trans (hset.trans (hlocal.trans hcache))
  simp only [LocalStorage.deletePayload, OrdMap.get_erase_self, hindex', hrow] at hall
  exact hall

/-- An eviction without a bucket, a payload or a readable index record fails. -/
theorem evictToCloud_inv {s' : TieredStorage} (h : s.evictToCloud J id = some s') :
    s.bucket.isSome = true ∧ ∃ p index, (s.copies id).getPayload J = some p ∧
      (s.copies id).getNodeIndex J = some index := by
  unfold evictToCloud at h
  split_ifs at h with hbucket
  obtain ⟨p, hp, h⟩ := Option.bind_eq_some_iff.mp h
  obtain ⟨moved, hmoved, -⟩ := Option.bind_eq_some_iff.mp h
  obtain ⟨index, hindex, -⟩ := Option.map_eq_some_iff.mp hmoved
  rw [getPayload_eq] at hp
  rw [getNodeIndex_eq, (changes_bucketPut s id p).at_id] at hindex
  exact ⟨hbucket, p, index, hp, hindex⟩

theorem promoteToLocal_eq (hp : (s.copies id).object = some p) {index : Option NodeIndex}
    (hindex : (s.copies id).getNodeIndex J = some index) :
    ∃ s', s.promoteToLocal J id = some s' ∧ Changes s s' id
      { s.copies id with
        index := index.map fun index => { index with payloadLocation := .local }
        payload := some p } := by
  have hoff : LocalOff id s.local_ (s.local_.putPayload id p) :=
    fun i hne => ⟨rfl, rfl, OrdMap.get_insert_of_ne _ _ hne⟩
  have hlocal := changes_local s id hoff
  have hagain : (copies { s with local_ := s.local_.putPayload id p } id).getNodeIndex J =
      some index := by
    rw [hlocal.at_id]
    exact hindex
  obtain ⟨moved, hmoved, hset⟩ :=
    setLocation_eq J { s with local_ := s.local_.putPayload id p } id .local hagain
  unfold promoteToLocal
  rw [show s.fetchCloudPayload id = some p from hp]
  simp only [Option.bind_eq_bind, Option.bind_some, hmoved]
  refine ⟨_, rfl, ?_⟩
  rw [hlocal.at_id] at hset
  have hall := hlocal.trans hset
  simp only [LocalStorage.putPayload, OrdMap.get_insert_self] at hall
  exact hall

end TieredStorage

end AresaDb.Store
