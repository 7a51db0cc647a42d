import AresaDb.Store.Tiering

/-! # Indexes over whole runs

The property index and the full-text index are maintained by the insertion of single nodes alone.
Of the other operations, a batch insertion and an update leave the entries as they are, building an
index sees the nodes whose payload is local, and the entries of a deleted node stay.  So an index is
exact where these cannot be told from a maintained one (`StoreOp.IndexSafe`), and it stays exact
along every run of such operations (`exact_run`). -/

namespace AresaDb.Store

open FieldIndex

/-! ### What an operation does to an index -/

/-- What becomes of the entries of an index. -/
inductive IndexEffect where
  | keep
  | list (node : Node)
  | create (nodeType field : String)
  | drop (nodeType field : String)

namespace IndexEffect

/-- The index after the effect on it, in a storage.  None is created from payloads that do not
parse. -/
def apply (terms : Value → List String) (l : LocalStorage) (ix : FieldIndex) :
    IndexEffect → FieldIndex
  | keep => ix
  | list node => ix.update terms node.id node.nodeType node.properties
  | create nodeType field =>
      if l.scanParses nodeType then
        ix.create terms nodeType field (l.scanPayloads nodeType)
      else ix
  | drop nodeType field => ix.drop nodeType field

end IndexEffect

namespace StoreOp

def propertyEffect : StoreOp → IndexEffect
  | insertNode node => .list node
  | createIndex nodeType field => .create nodeType field
  | dropIndex nodeType field => .drop nodeType field
  | _ => .keep

def fulltextEffect : StoreOp → IndexEffect
  | insertNode node => .list node
  | createFulltextIndex nodeType field => .create nodeType field
  | _ => .keep

end StoreOp

/-- The index tables of two local storages are the same. -/
def SameIndexes (l l' : LocalStorage) : Prop :=
  l'.propertyFields = l.propertyFields ∧ l'.fulltextFields = l.fulltextFields

theorem SameIndexes.refl (l : LocalStorage) : SameIndexes l l := ⟨rfl, rfl⟩

theorem SameIndexes.trans {l₁ l₂ l₃ : LocalStorage} (h : SameIndexes l₁ l₂)
    (h' : SameIndexes l₂ l₃) : SameIndexes l₁ l₃ :=
  ⟨h'.1.trans h.1, h'.2.trans h.2⟩

section

variable {J : Serde} {U : Unicode} {s s' : TieredStorage}

theorem resolvePayload_local {id : NodeId} {index : NodeIndex} {p : Props}
    (h : s.resolvePayload J id index = some (p, s')) : s'.local_ = s.local_ := by
  unfold TieredStorage.resolvePayload at h
  split at h
  · split_ifs at h
    obtain ⟨-, rfl⟩ := Prod.mk.inj (Option.some.inj h)
    rfl
  · obtain ⟨q, -, hq⟩ := Option.map_eq_some_iff.mp h
    obtain ⟨-, rfl⟩ := Prod.mk.inj hq
    rfl

theorem getNode_local {id : NodeId} {node : Option Node}
    (h : s.getNode J id = some (node, s')) : s'.local_ = s.local_ := by
  unfold TieredStorage.getNode at h
  obtain ⟨index, -, h⟩ := Option.bind_eq_some_iff.mp h
  cases index with
  | none =>
      obtain ⟨-, rfl⟩ := Prod.mk.inj (Option.some.inj h)
      rfl
  | some index =>
      obtain ⟨⟨p, s''⟩, hres, heq⟩ := Option.bind_eq_some_iff.mp h
      obtain ⟨-, rfl⟩ := Prod.mk.inj (Option.some.inj heq)
      exact resolvePayload_local hres

theorem sameIndexes_setLocation {id : NodeId} {location : PayloadLocation}
    (h : s.setLocation J id location = some s') : SameIndexes s.local_ s'.local_ := by
  unfold TieredStorage.setLocation at h
  obtain ⟨index, -, rfl⟩ := Option.map_eq_some_iff.mp h
  cases index <;> exact .refl _

theorem local_pushThrough (id : NodeId) (p : Props) :
    (s.pushThrough id p).local_ = s.local_ := by
  unfold TieredStorage.pushThrough
  split_ifs <;> rfl

theorem sameIndexes_evictToCloud {id : NodeId} (h : s.evictToCloud J id = some s') :
    SameIndexes s.local_ s'.local_ := by
  unfold TieredStorage.evictToCloud at h
  split_ifs at h
  obtain ⟨p, -, h⟩ := Option.bind_eq_some_iff.mp h
  obtain ⟨moved, hmoved, heq⟩ := Option.bind_eq_some_iff.mp h
  obtain rfl := Option.some.inj heq
  have hset := sameIndexes_setLocation (s := s.bucketPut id p) hmoved
  exact hset

theorem sameIndexes_evictUntil (target : ℕ) (candidates : List (NodeId × ℕ)) (bytes : ℕ) :
    SameIndexes s.local_ (TieredStorage.evictUntil J target bytes s candidates).2.local_ := by
  induction candidates generalizing bytes s with
  | nil => exact .refl _
  | cons e rest ih =>
      unfold TieredStorage.evictUntil
      split_ifs
      · exact .refl _
      cases hevict : s.evictToCloud J e.1 with
      | none => exact ih bytes
      | some s'' => exact (sameIndexes_evictToCloud hevict).trans (ih (bytes - e.2))

theorem sameIndexes_insertNodesBatch (batch : List Node) :
    SameIndexes s.local_ (s.insertNodesBatch J batch).local_ := by
  induction batch generalizing s with
  | nil => exact .refl _
  | cons node batch ih => exact ih (s := insertBatched J s node)

/-- An update writes the node tables alone. -/
theorem updateNode_inv {now : Timestamp} {id : NodeId} {v : Value} {n : Node}
    (h : s.updateNode J now id v = some (n, s')) :
    ∃ index p s₁ index', s.local_.getNodeIndex J id = some (some index) ∧
      s.resolvePayload J id index = some (p, s₁) ∧ n.properties = mergeProps p v ∧
      s'.local_ = s.local_.writeNodeTiered J id index' (J.props (mergeProps p v)) := by
  unfold TieredStorage.updateNode at h
  obtain ⟨index, hindex, h⟩ := Option.bind_eq_some_iff.mp h
  obtain ⟨⟨p, s₁⟩, hres, h⟩ := Option.bind_eq_some_iff.mp h
  obtain ⟨l, hwrite, heq⟩ := Option.bind_eq_some_iff.mp h
  obtain ⟨rfl, rfl⟩ := Prod.mk.inj (Option.some.inj heq)
  refine ⟨index, p, s₁, TieredStorage.updatedIndex J now index (mergeProps p v),
    Option.join_eq_some_iff.mp hindex, hres, rfl, ?_⟩
  unfold LocalStorage.updateNodeTiered at hwrite
  split_ifs at hwrite
  obtain rfl := Option.some.inj hwrite
  rw [local_pushThrough]
  exact congrArg (LocalStorage.writeNodeTiered J · id _ _) (resolvePayload_local hres)

theorem sameIndexes_updateNode (now : Timestamp) (id : NodeId) (v : Value) :
    SameIndexes s.local_ ((StoreOp.updateNode now id v).run J U s).local_ := by
  simp only [StoreOp.run]
  cases h : s.updateNode J now id v with
  | none => exact .refl _
  | some r =>
      obtain ⟨_, _, _, _, -, -, -, hlocal⟩ := updateNode_inv h
      rw [Option.map_some, Option.getD_some, hlocal]
      exact .refl _

theorem sameIndexes_deleteNode (id : NodeId) :
    SameIndexes s.local_ ((StoreOp.deleteNode id).run J U s).local_ := by
  simp only [StoreOp.run, TieredStorage.deleteNode, LocalStorage.deleteNodeTiered]
  split_ifs
  · unfold LocalStorage.removeNodeTiered
    rw [LocalStorage.deleteEdgesOf_eq]
    exact .refl _
  · exact .refl _

theorem sameIndexes_promoteToLocal (id : NodeId) :
    SameIndexes s.local_ ((s.promoteToLocal J id).getD s).local_ := by
  cases h : s.promoteToLocal J id with
  | none => exact .refl _
  | some s' =>
      obtain ⟨p, -, hset⟩ := Option.bind_eq_some_iff.mp h
      exact sameIndexes_setLocation (s := { s with local_ := s.local_.putPayload id p }) hset

theorem sameIndexes_insertNode (node : Node) :
    (s.insertNode J U node).local_.propertyFields =
        s.local_.propertyFields.update (propertyTerms J) node.id node.nodeType node.properties ∧
      (s.insertNode J U node).local_.fulltextFields =
        s.local_.fulltextFields.update (fulltextTerms U) node.id node.nodeType node.properties := by
  unfold TieredStorage.insertNode TieredStorage.cachePut
  simp only [local_pushThrough]
  obtain ⟨m, hm⟩ := LocalStorage.updateFulltextIndex_eq U
    ((s.local_.insertNodeTiered node.id (.fromNode node .local (J.size node.properties))
      (J.props node.properties)).updatePropertyIndexes J node.id node.nodeType node.properties)
    node.id node.nodeType node.properties
  rw [hm]
  exact ⟨rfl, rfl⟩

/-- The two indexes after an operation. -/
theorem indexes_run (op : StoreOp) :
    (op.run J U s).local_.propertyFields =
        op.propertyEffect.apply (propertyTerms J) s.local_ s.local_.propertyFields ∧
      (op.run J U s).local_.fulltextFields =
        op.fulltextEffect.apply (fulltextTerms U) s.local_ s.local_.fulltextFields := by
  cases op with
  | insertNode node => exact sameIndexes_insertNode node
  | insertNodesBatch batch => exact sameIndexes_insertNodesBatch batch
  | updateNode now id v => exact sameIndexes_updateNode now id v
  | deleteNode id => exact sameIndexes_deleteNode id
  | getNode id =>
      simp only [StoreOp.run]
      cases h : s.getNode J id with
      | none => exact ⟨rfl, rfl⟩
      | some r =>
          simp only [Option.map_some, Option.getD_some, getNode_local h]
          exact ⟨rfl, rfl⟩
  | evictToCloud id =>
      simp only [StoreOp.run]
      cases h : s.evictToCloud J id with
      | none => exact ⟨rfl, rfl⟩
      | some s' => exact sameIndexes_evictToCloud h
  | promoteToLocal id => exact sameIndexes_promoteToLocal id
  | runEviction fileBytes =>
      simp only [StoreOp.run, TieredStorage.runEviction]
      split_ifs
      · exact ⟨rfl, rfl⟩
      · exact sameIndexes_evictUntil _ _ _
  | loseCache ids => exact ⟨rfl, rfl⟩
  | createIndex t f =>
      simp only [StoreOp.run]
      rw [s.createIndex_getD, LocalStorage.createPropertyIndex_eq]
      exact ⟨rfl, rfl⟩
  | dropIndex t f => exact ⟨rfl, rfl⟩
  | createFulltextIndex t f =>
      obtain ⟨m, hm⟩ := LocalStorage.createFulltextIndex_eq U s.local_ t f
      simp only [StoreOp.run]
      rw [s.createFulltextIndex_getD, hm]
      exact ⟨rfl, rfl⟩

end

/-! ### The two indexes as one -/

/-- An index of the storage: its terms, its tables, and what every operation does to it. -/
structure IndexKind (J : Serde) (U : Unicode) where
  terms : Value → List String
  view : LocalStorage → FieldIndex
  effect : StoreOp → IndexEffect
  run : ∀ s op, view (StoreOp.run J U s op).local_ =
    (effect op).apply terms s.local_ (view s.local_)
  insert_effect : ∀ node, effect (.insertNode node) = .list node
  eq_insert : ∀ op node, effect op = .list node → op = .insertNode node
  batch_effect : ∀ batch, effect (.insertNodesBatch batch) = .keep
  update_effect : ∀ now id v, effect (.updateNode now id v) = .keep
  delete_effect : ∀ id, effect (.deleteNode id) = .keep

def propertyKind (J : Serde) (U : Unicode) : IndexKind J U where
  terms := propertyTerms J
  view := LocalStorage.propertyFields
  effect := StoreOp.propertyEffect
  run _ op := (indexes_run op).1
  insert_effect _ := rfl
  eq_insert op node h := by
    cases op <;> cases h
    rfl
  batch_effect _ := rfl
  update_effect _ _ _ := rfl
  delete_effect _ := rfl

def fulltextKind (J : Serde) (U : Unicode) : IndexKind J U where
  terms := fulltextTerms U
  view := LocalStorage.fulltextFields
  effect := StoreOp.fulltextEffect
  run _ op := (indexes_run op).2
  insert_effect _ := rfl
  eq_insert op node h := by
    cases op <;> cases h
    rfl
  batch_effect _ := rfl
  update_effect _ _ _ := rfl
  delete_effect _ := rfl

/-! ### Safe operations -/

/-- The effect leaves the index exact.

* A node is listed: the terms its id is listed under already, with those of the node as it is handed
  in, are the terms of the node as it is read back.
* An index is created: the names are plain, and the scan of the local payloads reads the terms of
  the nodes of the type and of no other node.
* An index is dropped: the names are plain. -/
def IndexEffect.Safe (J : Serde) (terms : Value → List String) (t : Tracked) (ix : FieldIndex) :
    IndexEffect → Prop
  | keep => True
  | list node => AddsRight terms ix node.id node.properties (J.node node)
  | create nodeType field => Plain nodeType ∧ Plain field ∧
      (¬ ix.Registered nodeType field →
        ScansRight terms t.nodes nodeType field (t.store.local_.scanPayloads nodeType))
  | drop nodeType field => Plain nodeType ∧ Plain field

/-- The nodes change without the index, and the index stays exact.

* Nodes are inserted in a batch: their ids are listed under their terms already.
* A node is updated: the terms of its indexed fields stay. -/
def StoreOp.NodesSafe (J : Serde) (terms : Value → List String) (t : Tracked) (ix : FieldIndex) :
    StoreOp → Prop
  | insertNodesBatch batch => ∀ (id : NodeId) (n : Node),
      ((insertNodesBatch batch).effect J ∅)[id]? = some n → ListsRight terms ix id n
  | updateNode now id v => ∀ n : Node, t.nodes[id]? = some n → ∀ f, ix.Registered n.nodeType f →
      ∀ x, HasTerm terms (J.node (LocalStorage.touchNode now n v)).properties f x ↔
        HasTerm terms n.properties f x
  | _ => True

section

variable {J : Serde} {U : Unicode} (K : IndexKind J U)

/-- The operation trusts no stale copy, inserts what parses, and leaves the index exact. -/
structure IndexSafe (t : Tracked) (op : StoreOp) : Prop where
  tiering : op.TieringSafe J t
  effect : (K.effect op).Safe J K.terms t (K.view t.store.local_)
  nodes : op.NodesSafe J K.terms t (K.view t.store.local_)

/-- The nodes are there in agreeing copies, their payloads parse, and the index is exact. -/
structure IndexInv (t : Tracked) : Prop where
  coherent : Coherent t.nodes t.store
  readable : AllParse t.nodes
  exact : Exact K.terms (K.view t.store.local_) t.nodes

variable {K}

theorem IndexInv.step {t : Tracked} (h : IndexInv K t) {op : StoreOp} (hsafe : IndexSafe K t op) :
    IndexInv K (t.step J U op) := by
  refine ⟨h.coherent.step hsafe.tiering, h.readable.step hsafe.tiering, ?_⟩
  have heffect := hsafe.effect
  have hnodes := hsafe.nodes
  show Exact K.terms (K.view (op.run J U t.store).local_) (op.effect J t.nodes)
  rw [K.run]
  cases op with
  | insertNode node =>
      rw [K.insert_effect] at heffect ⊢
      exact h.exact.update (n := J.node node) heffect
  | insertNodesBatch batch =>
      rw [K.batch_effect]
      refine ⟨h.exact.named, fun id n hn => ?_⟩
      have hor := OrdMap.get_insertAll_or t.nodes Node.id J.node batch id
      rw [show (t.nodes.insertAll Node.id J.node batch)[id]? = some n from hn] at hor
      cases hbatch : ((∅ : OrdMap NodeId Node).insertAll Node.id J.node batch)[id]? with
      | some n' =>
          rw [hbatch, Option.some_or] at hor
          exact hnodes id n (hbatch.trans hor.symm)
      | none =>
          rw [hbatch, Option.none_or] at hor
          exact h.exact.right id n hor.symm
  | updateNode now id v =>
      rw [K.update_effect]
      simp only [StoreOp.effect]
      cases hn : t.nodes[id]? with
      | none => exact h.exact
      | some n =>
          simp only
          split_ifs
          swap
          · exact h.exact
          refine h.exact.insert_node fun t' f hreg x => ?_
          rw [h.exact.right id n hn t' f hreg x]
          refine and_congr_right fun htype => (hnodes n hn f ?_ x).symm
          rwa [← htype]
  | deleteNode id =>
      rw [K.delete_effect]
      exact h.exact.erase_node id
  | _ =>
      generalize heff : K.effect _ = e at heffect ⊢
      cases e with
      | keep => exact h.exact
      | list node => cases K.eq_insert _ _ heff
      | create t' f =>
          simp only [IndexEffect.apply]
          split_ifs
          · exact h.exact.create heffect.1 heffect.2.1 heffect.2.2
          · exact h.exact
      | drop t' f => exact h.exact.drop heffect.1 heffect.2

/-- A run of safe operations keeps the index exact. -/
theorem exact_run {t : Tracked} (h : IndexInv K t) {ops : List StoreOp}
    (hsafe : Run.Along (Tracked.step J U) (IndexSafe K) t ops) :
    IndexInv K (Run.run (Tracked.step J U) t ops) :=
  hsafe.invariant (fun _ _ h hs => h.step hs) h

/-- Every operation of a run from a new database is safe for the index. -/
def SafeRun (K : IndexKind J U) (config : TieredConfig) (hasBucket : Bool) (ops : List StoreOp) :
    Prop :=
  Run.Along (Tracked.step J U) (IndexSafe K) (.new config hasBucket) ops

/-- Reading a list of ids gives the nodes that there are. -/
theorem readNodes_eq {τ : Type} {nodes : OrdMap NodeId Node} {s : TieredStorage}
    (h : Coherent nodes s) (l : List (NodeId × τ)) :
    ∃ s', s.readNodes J l =
        (if (l.filterMap fun e => nodes[e.1]?).all (fun n => parses n.properties) then
          some (l.filterMap fun e => nodes[e.1]?.map fun n => (n, e.2), s') else none) ∧
      s'.local_ = s.local_ ∧ Coherent nodes s' := by
  induction l generalizing s with
  | nil => exact ⟨s, rfl, rfl, h⟩
  | cons e l ih =>
      obtain ⟨id, tag⟩ := e
      obtain ⟨s₁, hread, hlocal₁, hs₁⟩ := h.getNode (J := J) id
      obtain ⟨s₂, hrest, hlocal₂, hs₂⟩ := ih hs₁
      refine ⟨s₂, ?_, hlocal₂.trans hlocal₁, hs₂⟩
      unfold TieredStorage.readNodes
      simp only [hread, Option.bind_eq_bind, Option.pure_def]
      cases hn : nodes[id]? with
      | none =>
          rw [Option.all_none, if_pos rfl, Option.bind_some, hrest,
            List.filterMap_cons_none (f := fun e : NodeId × τ => nodes[e.1]?) hn,
            List.filterMap_cons_none (by rw [hn]; rfl)]
          split_ifs <;> rfl
      | some n =>
          rw [List.filterMap_cons_some (f := fun e : NodeId × τ => nodes[e.1]?) hn,
            List.filterMap_cons_some (by rw [hn]; rfl), List.all_cons, Option.all_some]
          by_cases hp : parses n.properties = true
          · rw [if_pos hp, Option.bind_some, hrest, hp, Bool.true_and]
            split_ifs <;> rfl
          · rw [if_neg hp, Bool.eq_false_of_not_eq_true hp]
            rfl

/-- Where all payloads parse, no read fails. -/
theorem readNodes_of_allParse {τ : Type} {nodes : OrdMap NodeId Node} {s : TieredStorage}
    (h : Coherent nodes s) (hparse : AllParse nodes) (l : List (NodeId × τ)) :
    ∃ s', s.readNodes J l = some (l.filterMap fun e => nodes[e.1]?.map fun n => (n, e.2), s') ∧
      Coherent nodes s' := by
  obtain ⟨s', hread, -, hs'⟩ := readNodes_eq (J := J) h l
  refine ⟨s', hread.trans (if_pos (List.all_eq_true.mpr fun n hn => ?_)), hs'⟩
  obtain ⟨e, -, he⟩ := List.mem_filterMap.mp hn
  exact hparse e.1 n he

/-- Nodes are under their own ids. -/
theorem Coherent.node_id {nodes : OrdMap NodeId Node} {s : TieredStorage} (h : Coherent nodes s)
    {id : NodeId} {n : Node} (hn : nodes[id]? = some n) : n.id = id := by
  have hid := h id
  rw [hn] at hid
  obtain ⟨index, hholds⟩ := hid
  rw [← hholds.record]
  rfl

end

end AresaDb.Store
