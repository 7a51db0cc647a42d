import AresaDb.Vectors.Watch

/-! # The steps of the handle

A write changes one node, and the indexes as they are told (`run_of_written`).  A search goes to the
index of its key or fills one (`similaritySearch_spec`), and so does a rebuild
(`rebuildVectorIndex_spec`); an index that is filled is that of the current vectors. -/

namespace AresaDb.Vectors

open AresaDb.Store

/-! ### One write -/

/-- The nodes after a write. -/
def put (nodes : OrdMap NodeId Node) (id : NodeId) : Option Node → OrdMap NodeId Node
  | some node => nodes.insert id node
  | none => nodes.erase id

theorem get_put (nodes : OrdMap NodeId Node) (id : NodeId) (node : Option Node) (i : NodeId) :
    (put nodes id node)[i]? = if id = i then node else nodes[i]? := by
  cases node with
  | none =>
      rw [put, OrdMap.get_erase]
      split_ifs <;> rfl
  | some node =>
      rw [put, OrdMap.get_insert]
      split_ifs <;> rfl

/-- The current vectors among nodes. -/
def current (nodes : OrdMap NodeId Node) (t f : String) (dimension : ℕ) (id : NodeId) :
    Option (List Binary64) :=
  nodes[id]?.bind (typedVector t f dimension)

section

variable {F : JsonFormat} {P : Platform} {U : Unicode} {nodes : OrdMap NodeId Node} {db : Handle}

theorem stored_eq (h : Keeps nodes db.tiered) (id : NodeId) : db.stored F id = nodes[id]? := by
  have hid := h.coherent id
  unfold Handle.stored LocalStorage.recordOf
  cases hn : nodes[id]? with
  | none =>
      rw [hn] at hid
      have hcopies : db.tiered.copies id = ⟨none, none, none, none, none⟩ := hid
      rw [show db.tiered.local_.nodeIndexes[id]? = none from congrArg Copies.index hcopies,
        show db.tiered.local_.nodes[id]? = none from congrArg Copies.row hcopies]
      rfl
  | some n =>
      rw [hn] at hid
      obtain ⟨index, hholds⟩ := hid
      rw [show db.tiered.local_.nodeIndexes[id]? = some index from hholds.indexed]
      simp only [Option.bind_some, hholds.find, Option.map_some, hholds.record]

theorem vectorAt_eq (h : Keeps nodes db.tiered) (t f : String) (dimension : ℕ) :
    db.vectorAt F t f dimension = current nodes t f dimension := by
  funext id
  rw [Handle.vectorAt, stored_eq h]
  rfl

theorem mem_matching (h : Keeps nodes db.tiered) {t f : String} {dimension : ℕ} {id : NodeId} :
    id ∈ db.matching F t f dimension ↔ (current nodes t f dimension id).isSome := by
  have : Std.LawfulEqCmp (compare : NodeId → NodeId → Ordering) := ⟨compare_eq_iff_eq.mp⟩
  unfold Handle.matching Handle.ids
  rw [vectorAt_eq h, List.mem_filter, Std.ExtTreeMap.mem_keys,
    Std.ExtTreeMap.mem_iff_isSome_getElem?]
  refine and_iff_right_of_imp fun hsome => ?_
  obtain ⟨v, hv⟩ := Option.isSome_iff_exists.mp hsome
  obtain ⟨n, hn, -⟩ := Option.bind_eq_some_iff.mp hv
  have hid := h.coherent id
  rw [hn] at hid
  obtain ⟨index, hholds⟩ := hid
  exact Option.isSome_of_eq_some hholds.indexed

theorem nodup_matching (t f : String) (dimension : ℕ) : (db.matching F t f dimension).Nodup :=
  Std.ExtTreeMap.nodup_keys.filter _

theorem insert_spec (h : Keeps nodes db.tiered) {id : NodeId} (hfresh : (db.stored F id).isNone)
    (now : Timestamp) (t : String) (v : Value) :
    Keeps (put nodes id (some (F.serde.node (.new id now t v))))
      (db.tiered.insertNode F.serde U (.new id now t v)) := by
  rw [stored_eq h, Option.isNone_iff_eq_none] at hfresh
  exact @Keeps.insertNode F.serde U nodes db.tiered h (.new id now t v) hfresh

/-- An update that is written leaves this node. -/
theorem update_spec (h : Keeps nodes db.tiered) {id : NodeId} {now : Timestamp}
    {properties : Json} :
    ((VectorOp.updateNode now id properties).written F db = none →
      Database.updateNode F db.tiered now id properties = none) ∧
    ∀ i node, (VectorOp.updateNode now id properties).written F db = some (i, node) →
      ∃ s', Database.updateNode F db.tiered now id properties = some s' ∧
        Keeps (put nodes i node) s' := by
  simp only [VectorOp.written, Database.updateNode, stored_eq h]
  cases hv : Value.fromJson F properties with
  | none => exact ⟨fun _ => rfl, nofun⟩
  | some v =>
      cases hn : nodes[id]? with
      | none =>
          have hnone : db.tiered.updateNode F.serde now id v = none := by
            have hid := h.coherent id
            rw [hn] at hid
            unfold TieredStorage.updateNode
            rw [TieredStorage.getNodeIndex_eq,
              show db.tiered.copies id = ⟨none, none, none, none, none⟩ from hid]
            rfl
          simp [hnone]
      | some n =>
          have hparses : parses (F.serde.node (LocalStorage.touchNode now n v)).properties =
              parses (mergeProps n.properties v) := F.serde.parses_props _
          simp only [Option.bind_eq_bind, Option.bind_some, Option.pure_def, hparses]
          by_cases hboth : (parses n.properties && parses (mergeProps n.properties v)) = true
          · obtain ⟨hold, hnew⟩ := Bool.and_eq_true_iff.mp hboth
            obtain ⟨node, s', hupdate, -, hs'⟩ :=
              h.updateNode_some (J := F.serde) hn now hold hnew
            rw [if_pos hboth, hupdate]
            refine ⟨nofun, fun i node' heq => ?_⟩
            obtain ⟨rfl, rfl⟩ := Prod.mk.inj (Option.some.inj heq)
            exact ⟨s', rfl, hs'⟩
          · rw [if_neg hboth, h.updateNode_none (J := F.serde) hn now hboth]
            exact ⟨fun _ => rfl, nofun⟩

/-- An index has learnt the vector of an id. -/
structure Learns (P : Platform) (ix ix' : VectorIndex) (id : NodeId) (e : List Binary64) :
    Prop where
  insert : ix.insert P id e = some ix'
  alike : VectorIndex.Alike ix ix'
  entered : ix'.Entered
  vectors : ∀ i, ix'.vectorOf i =
    if id = i then some (VectorIndex.normalize P e) else ix.vectorOf i

/-- The index before it learns: that of the key, or a new one. -/
def Before (db : Handle) (key : VectorIndexKey) (ix' ix : VectorIndex) : Prop :=
  db.vectorIndexes[key]? = some ix ∨
    (db.vectorIndexes[key]? = none ∧ ix = .withParams ix'.dimension 16 4 .cosine)

/-- The index of a key after a write of an id: the same, or with the vector that it was told of a
new node. -/
def Follows (P : Platform) (db : Handle) (key : VectorIndexKey) (ix' : VectorIndex) (id : NodeId)
    (known told : Option (List Binary64)) : Prop :=
  (db.vectorIndexes[key]? = some ix' ∧ told = known) ∨
    ∃ ix e, Before db key ix' ix ∧ known = none ∧ told = some e ∧ Learns P ix ix' id e

theorem ready_withParams (dimension maxConnections maxLayers : ℕ) (metric : DistanceMetric) :
    Ready (.withParams dimension maxConnections maxLayers metric) := by
  intro h
  have hempty : (∅ : OrdMap NodeId VectorEntry).isEmpty = true := Std.ExtTreeMap.isEmpty_iff.mpr rfl
  exact absurd (h.symm.trans hempty) Bool.false_ne_true

theorem withParams_vectorOf (dimension maxConnections maxLayers : ℕ) (metric : DistanceMetric)
    (id : NodeId) :
    (VectorIndex.withParams dimension maxConnections maxLayers metric).vectorOf id = none :=
  VectorIndex.vectorOf_eq_none_of_isEmpty (Std.ExtTreeMap.isEmpty_iff.mpr rfl) id

theorem width_withParams (dimension : ℕ) (metric : DistanceMetric) :
    (VectorIndex.withParams dimension 16 4 metric).maxConnections ≤
      (VectorIndex.withParams dimension 16 4 metric).efConstruction := by
  change 16 ≤ 100
  decide

theorem smallComplete_withParams (dimension maxConnections maxLayers : ℕ)
    (metric : DistanceMetric) :
    (VectorIndex.withParams dimension maxConnections maxLayers metric).SmallComplete := by
  intro _ a entry ha
  have hnone := withParams_vectorOf dimension maxConnections maxLayers metric a
  rw [VectorIndex.vectorOf, ha] at hnone
  cases hnone

/-- What an insert of an embedding does to the indexes. -/
theorem indexes_insertWithEmbedding
    (hready : ∀ (key : VectorIndexKey) (ix : VectorIndex),
      db.vectorIndexes[key]? = some ix → Ready ix)
    {id : NodeId} (hfresh : (db.stored F id).isNone) (now : Timestamp) (t' : String)
    (properties : Json) (f' : String) (e : List Binary64) {db' : Handle}
    (hrun : db.insertWithEmbedding F P U id now t' properties f' e = some db') {t f : String}
    {ix' : VectorIndex} (hix' : db'.vectorIndexes[toLex (t, f)]? = some ix') :
    Follows P db (toLex (t, f)) ix' id (db.vectorAt F t f ix'.dimension id)
      ((VectorOp.insertWithEmbedding id now t' properties f' e).told F db t f ix'.dimension
        id) := by
  obtain ⟨v, -, rfl⟩ := Option.map_eq_some_iff.mp hrun
  have hknown : db.vectorAt F t f ix'.dimension id = none := by
    rw [Handle.vectorAt, Option.isNone_iff_eq_none.mp hfresh]
    rfl
  dsimp only at hix'
  rw [OrdMap.get_insert] at hix'
  by_cases hkey : toLex (t', f') = toLex (t, f)
  · rw [if_pos hkey] at hix'
    obtain ⟨rfl, rfl⟩ := Prod.mk.inj (toLex.injective hkey)
    have hix' := Option.some.inj hix'
    unfold Handle.getOrCreateVectorIndex at hix'
    cases hcached : db.vectorIndexes[toLex (t', f')]? with
    | none =>
        rw [hcached] at hix'
        obtain ⟨ix₁, hinsert, halike, hentered, hvectors⟩ := VectorIndex.insert_of_eq (P := P)
          (ready_withParams e.length 16 4 .cosine) (v := e) rfl id
        rw [Option.getD_none, hinsert] at hix'
        obtain rfl : ix₁ = ix' := hix'
        refine .inr ⟨_, e, .inr ⟨hcached, ?_⟩, hknown, ?_, hinsert, halike, hentered, hvectors⟩
        · rw [halike.dimension]
          rfl
        · exact if_pos ⟨rfl, rfl, halike.dimension.symm⟩
    | some ix =>
        rw [hcached, Option.getD_some] at hix'
        by_cases hdim : e.length = ix.dimension
        · obtain ⟨ix₁, hinsert, halike, hentered, hvectors⟩ :=
            VectorIndex.insert_of_eq (P := P) (hready _ ix hcached) hdim id
          rw [hinsert] at hix'
          obtain rfl : ix₁ = ix' := hix'
          refine .inr ⟨ix, e, .inl hcached, hknown, ?_, hinsert, halike, hentered, hvectors⟩
          exact if_pos ⟨rfl, rfl, hdim.trans halike.dimension.symm⟩
        · rw [VectorIndex.insert_of_ne hdim] at hix'
          obtain rfl : ix = ix' := hix'
          exact .inl ⟨hcached, if_neg fun h => hdim h.2.2⟩
  · rw [if_neg hkey] at hix'
    refine .inl ⟨hix', if_neg fun h => hkey ?_⟩
    rw [h.1, h.2.1]

theorem renews_of_written {op : VectorOp} {e : NodeId × Option Node}
    (h : op.written F db = some e) (t f : String) : op.renews F P db t f = false := by
  cases op <;> first | rfl | cases h

theorem of_outdates_eq_false {op : VectorOp} {id : NodeId} {node : Option Node}
    (hwritten : op.written F db = some (id, node)) {t f : String} {dimension : ℕ}
    (h : op.outdates F db t f dimension = false) (htold : (op.told F db t f dimension id).isSome) :
    node.bind (typedVector t f dimension) = op.told F db t f dimension id := by
  rw [VectorOp.outdates, hwritten] at h
  by_contra hne
  simp [htold, hne] at h

theorem of_misses_eq_false {op : VectorOp} {id : NodeId} {node : Option Node}
    (hwritten : op.written F db = some (id, node)) {t f : String} {dimension : ℕ}
    (h : op.misses F db t f dimension = false) :
    ((node.bind (typedVector t f dimension)).isSome →
        node.bind (typedVector t f dimension) = op.told F db t f dimension id) ∧
      (db.vectorIndexes[toLex (t, f)]? = none → db.matching F t f dimension = []) := by
  rw [VectorOp.misses, hwritten] at h
  obtain ⟨hnode, hbegun⟩ := Bool.or_eq_false_iff.mp h
  refine ⟨fun hsome => ?_, fun hnone => ?_⟩
  · by_contra hne
    simp [hsome, hne] at hnode
  · rw [hnone] at hbegun
    simpa using hbegun

/-- A write that is done changes one node, and the indexes as they are told. -/
theorem run_of_written (h : Keeps nodes db.tiered)
    (hready : ∀ (key : VectorIndexKey) (ix : VectorIndex),
      db.vectorIndexes[key]? = some ix → Ready ix) {op : VectorOp}
    (hfresh : op.drawsFresh F db = true) {id : NodeId} {node : Option Node}
    (hwritten : op.written F db = some (id, node)) :
    Keeps (put nodes id node) (op.run F P U db).tiered ∧
      ∀ t f ix', (op.run F P U db).vectorIndexes[toLex (t, f)]? = some ix' →
        Follows P db (toLex (t, f)) ix' id (db.vectorAt F t f ix'.dimension id)
          (op.told F db t f ix'.dimension id) := by
  cases op with
  | insertNode i now t properties =>
      obtain ⟨v, hv, heq⟩ := Option.map_eq_some_iff.mp hwritten
      obtain ⟨rfl, rfl⟩ := Prod.mk.inj heq
      have hrun : VectorOp.run F P U db (.insertNode i now t properties) =
          { db with tiered := db.tiered.insertNode F.serde U (.new i now t v) } := by
        simp only [VectorOp.run, Handle.insertNode, Database.insertNode, hv]
        rfl
      rw [hrun]
      refine ⟨insert_spec h hfresh now _ _, fun t f ix' hix' => ?_⟩
      exact .inl ⟨hix', rfl⟩
  | insertWithEmbedding i now t properties field e =>
      obtain ⟨v, hv, heq⟩ := Option.map_eq_some_iff.mp hwritten
      obtain ⟨rfl, rfl⟩ := Prod.mk.inj heq
      obtain ⟨db', hdb', htiered⟩ : ∃ db',
          db.insertWithEmbedding F P U i now t properties field e = some db' ∧
            db'.tiered = db.tiered.insertNode F.serde U
              (.new i now t (withEmbedding field e v)) := by
        unfold Handle.insertWithEmbedding
        rw [hv]
        exact ⟨_, rfl, rfl⟩
      have hrun : (VectorOp.insertWithEmbedding i now t properties field e).run F P U db = db' := by
        rw [VectorOp.run, hdb']
        rfl
      rw [hrun, htiered]
      refine ⟨insert_spec h hfresh now _ _, fun t f ix' hix' => ?_⟩
      exact indexes_insertWithEmbedding hready hfresh now _ properties field e hdb' hix'
  | updateNode now i properties =>
      obtain ⟨s', hupdate, hs'⟩ := (update_spec h).2 id node hwritten
      have hrun : VectorOp.run F P U db (.updateNode now i properties) =
          { db with tiered := s' } := by
        simp only [VectorOp.run, Handle.updateNode, hupdate]
        rfl
      rw [hrun]
      exact ⟨hs', fun t f ix' hix' => .inl ⟨hix', rfl⟩⟩
  | deleteNode i =>
      obtain ⟨rfl, rfl⟩ := Prod.mk.inj (Option.some.inj hwritten)
      obtain ⟨s', hdelete, hs'⟩ := h.deleteNode i
      have hrun : VectorOp.run F P U db (.deleteNode i) = { db with tiered := s' } := by
        simp only [VectorOp.run, Handle.deleteNode, Database.deleteNode, hdelete]
        rfl
      rw [hrun]
      exact ⟨hs', fun t f ix' hix' => .inl ⟨hix', rfl⟩⟩
  | similaritySearch query t f k metric => cases hwritten
  | rebuildVectorIndex t f => cases hwritten

section

variable {ix ix' : VectorIndex} {cur cur' : NodeId → Option (List Binary64)} {id : NodeId}
  {e : List Binary64}

theorem Within.keep (h : Within P ix cur) (hkept : ∀ i, id ≠ i → cur' i = cur i)
    (hid : (cur id).isSome → cur' id = cur id) : Within P ix cur' := by
  intro i hi
  by_cases heq : id = i
  · subst heq
    have hcur := h id hi
    rw [hcur, Option.isSome_map] at hi
    rw [hid hi]
    exact hcur
  · rw [hkept i heq]
    exact h i hi

theorem Within.learn (h : Within P ix cur) (hlearns : Learns P ix ix' id e)
    (hkept : ∀ i, id ≠ i → cur' i = cur i) (hid : cur' id = some e) : Within P ix' cur' := by
  intro i hi
  rw [hlearns.vectors] at hi ⊢
  by_cases heq : id = i
  · subst heq
    rw [if_pos rfl, hid]
    rfl
  · rw [if_neg heq] at hi ⊢
    rw [hkept i heq]
    exact h i hi

theorem Covers.keep (h : Covers P ix cur) (hkept : ∀ i, id ≠ i → cur' i = cur i)
    (hid : (cur' id).isSome → cur' id = cur id) : Covers P ix cur' := by
  intro i hi
  by_cases heq : id = i
  · subst heq
    have hsame := hid hi
    rw [hsame] at hi ⊢
    exact h id hi
  · rw [hkept i heq] at hi ⊢
    exact h i hi

theorem Covers.learn (h : Covers P ix cur) (hlearns : Learns P ix ix' id e)
    (hkept : ∀ i, id ≠ i → cur' i = cur i) (hid : (cur' id).isSome → cur' id = some e) :
    Covers P ix' cur' := by
  intro i hi
  rw [hlearns.vectors]
  by_cases heq : id = i
  · subst heq
    rw [if_pos rfl, hid hi]
    rfl
  · rw [hkept i heq] at hi ⊢
    rw [if_neg heq]
    exact h i hi

end

/-! ### Reads -/

/-- The index is one that the handle makes. -/
structure Made (ix : VectorIndex) : Prop where
  entered : ix.Entered
  alike : VectorIndex.Alike (.withParams ix.dimension 16 4 .cosine) ix

/-- The index is that of the current vectors. -/
structure Filled (P : Platform) (nodes : OrdMap NodeId Node) (t f : String) (ix : VectorIndex) :
    Prop where
  made : Made ix
  small : ix.SmallComplete
  within : Within P ix (current nodes t f ix.dimension)
  covers : Covers P ix (current nodes t f ix.dimension)

/-- The index that is filled from what is read of a type. -/
theorem filled_spec (h : Keeps nodes db.tiered) {t f : String} {l : List Node}
    (hl : ∀ n, n ∈ l ↔ nodes[n.id]? = some n ∧ n.nodeType = t) (hids : (l.map Node.id).Nodup)
    {dimension : ℕ} (hdim : detectDimension f l = some dimension) {ix : VectorIndex}
    (hix : indexNodes P f (.withParams dimension 16 4 .cosine) l = ix) : Filled P nodes t f ix := by
  have hcurrent : ∀ n ∈ l, vectorOfDim f dimension n = current nodes t f dimension n.id := by
    intro n hn
    obtain ⟨hnode, htype⟩ := (hl n).mp hn
    rw [current, hnode, Option.bind_some, typedVector, if_pos htype]
  have hempty := withParams_vectorOf dimension 16 4 .cosine
  obtain ⟨halike, hready, hwithin, hsmall, -, hfound⟩ := indexNodes_spec (P := P)
    (ready_withParams dimension 16 4 .cosine) hcurrent
    (fun i hi => by rw [hempty] at hi; cases hi) (smallComplete_withParams dimension 16 4 .cosine)
    (width_withParams dimension .cosine) hids (fun n _ => hempty n.id) hix
  obtain rfl : dimension = ix.dimension := halike.dimension.symm
  refine ⟨⟨hready ?_, halike⟩, hsmall, hwithin, fun id hid => hwithin id ?_⟩
  · -- the vector whose dimension was detected is there
    obtain ⟨v, hv, hlen⟩ := Option.map_eq_some_iff.mp hdim
    obtain ⟨n, hn, hfield⟩ := List.mem_filterMap.mp (List.mem_of_mem_head? hv)
    have hsome : (current nodes t f ix.dimension n.id).isSome := by
      rw [← hcurrent n hn, vectorOfDim, hfield, Option.filter_some, if_pos (decide_eq_true hlen)]
      rfl
    have hthere := hfound n hn hsome
    rw [Bool.eq_false_iff]
    intro hempty
    rw [VectorIndex.vectorOf_eq_none_of_isEmpty hempty] at hthere
    cases hthere
  · obtain ⟨v, hv⟩ := Option.isSome_iff_exists.mp hid
    obtain ⟨n, hnode, hvector⟩ := Option.bind_eq_some_iff.mp hv
    have htype : n.nodeType = t := by
      by_contra hne
      rw [typedVector, if_neg hne] at hvector
      cases hvector
    obtain rfl := h.coherent.node_id hnode
    exact hfound n ((hl n).mpr ⟨hnode, htype⟩) hid

/-- What is read of a type. -/
theorem getAll_spec (h : Keeps nodes db.tiered) (t : String) :
    Database.getAllByType F db.tiered t none = none ∨ ∃ l s',
      Database.getAllByType F db.tiered t none = some (l, s') ∧ Keeps nodes s' ∧
        (∀ n, n ∈ l ↔ nodes[n.id]? = some n ∧ n.nodeType = t) ∧ (l.map Node.id).Nodup := by
  obtain ⟨l, s', hread, hs', -, hl⟩ := h.getAllByType_eq (F := F) t none
  obtain rfl := hl rfl
  rw [hread]
  split_ifs
  · exact .inr ⟨_, s', rfl, hs', fun n => h.mem_listed, h.nodup_listed t⟩
  · exact .inl rfl

/-- A search of an index that is there. -/
theorem similaritySearch_of_index {t f : String} {ix : VectorIndex}
    (hcached : db.vectorIndexes[toLex (t, f)]? = some ix) (hix : ix.Entered) (q : List Binary64)
    (k : ℕ) (metric : DistanceMetric) :
    db.indexFor F P t f = some ix ∧ db.similaritySearch F P q t f k metric =
      ((ix.search P q k).map fun l => l.map (toResult P metric), db) := by
  have hready : (some ix).filter (fun index => !index.vectors.isEmpty) = some ix := by
    rw [Option.filter_some, hix.isEmpty]
    rfl
  simp only [Handle.indexFor, Handle.similaritySearch, hcached, hready, and_self]

/-- A search that cannot read the nodes. -/
theorem similaritySearch_of_error {t f : String}
    (hcached : db.vectorIndexes[toLex (t, f)]? = none)
    (hread : Database.getAllByType F db.tiered t none = none) (q : List Binary64) (k : ℕ)
    (metric : DistanceMetric) :
    db.indexFor F P t f = none ∧ db.similaritySearch F P q t f k metric = (none, db) := by
  simp [Handle.indexFor, Handle.similaritySearch, hcached, hread]

/-- A search of nodes without vectors finds nothing. -/
theorem similaritySearch_of_none {t f : String} (hcached : db.vectorIndexes[toLex (t, f)]? = none)
    {l : List Node} {s' : TieredStorage}
    (hread : Database.getAllByType F db.tiered t none = some (l, s'))
    (hdim : detectDimension f l = none) (q : List Binary64) (k : ℕ) (metric : DistanceMetric) :
    db.indexFor F P t f = none ∧ ∃ answer, (∀ found, answer = some found → found = []) ∧
      db.similaritySearch F P q t f k metric = (answer, { db with tiered := s' }) := by
  have hnone : ∀ n ∈ l, fieldVector f n = none := by
    rwa [detectDimension, Option.map_eq_none_iff, List.head?_eq_none_iff,
      List.filterMap_eq_nil_iff] at hdim
  have hscan : highest P metric q l f k = [] := by
    unfold highest
    rw [List.filterMap_eq_nil_iff.mpr fun n hn => by rw [hnone n hn]; rfl]
    exact List.mergeSort_nil
  refine ⟨by simp [Handle.indexFor, hcached, hread, hdim], ?_⟩
  by_cases hempty : l = []
  · exact ⟨some [], fun _ h => (Option.some.inj h).symm,
      by simp [Handle.similaritySearch, hcached, hread, hempty]⟩
  · refine ⟨vectorSearch P metric q l f k, fun found hfound => ?_,
      by simp [Handle.similaritySearch, hcached, hread, hdim, hempty]⟩
    rw [← (vectorSearch_eq_some.mp hfound).2, hscan]

/-- A search that fills an index. -/
theorem similaritySearch_of_nodes {t f : String} (hcached : db.vectorIndexes[toLex (t, f)]? = none)
    {l : List Node} {s' : TieredStorage}
    (hread : Database.getAllByType F db.tiered t none = some (l, s')) {dimension : ℕ}
    (hdim : detectDimension f l = some dimension) {ix : VectorIndex}
    (hix : indexNodes P f (.withParams dimension 16 4 .cosine) l = ix) (q : List Binary64) (k : ℕ)
    (metric : DistanceMetric) :
    db.indexFor F P t f = some ix ∧ db.similaritySearch F P q t f k metric =
      ((ix.search P q k).map fun l => l.map (toResult P metric),
        ⟨s', db.vectorIndexes.insert (toLex (t, f)) ix⟩) := by
  have hne : l ≠ [] := by
    rintro rfl
    cases hdim
  have hempty : (VectorIndex.withParams dimension 16 4 .cosine).vectors.isEmpty = true :=
    Std.ExtTreeMap.isEmpty_iff.mpr rfl
  simp [Handle.indexFor, Handle.similaritySearch, Handle.getOrCreateVectorIndex, hcached, hread,
    hdim, hne, hempty, hix]

/-- A search goes to the index of the key, or to one that it fills; it finds nothing when there is
nothing to fill one with. -/
theorem similaritySearch_spec (h : Keeps nodes db.tiered)
    (hmade : ∀ (key : VectorIndexKey) (ix : VectorIndex),
      db.vectorIndexes[key]? = some ix → ix.Entered)
    (q : List Binary64) (t f : String) (k : ℕ) (metric : DistanceMetric) :
    ∃ answer tiered indexes,
      db.similaritySearch F P q t f k metric = (answer, ⟨tiered, indexes⟩) ∧ Keeps nodes tiered ∧
        ((db.indexFor F P t f = none ∧ (∀ l, answer = some l → l = []) ∧
            indexes = db.vectorIndexes) ∨
          ∃ ix, db.indexFor F P t f = some ix ∧
            answer = (ix.search P q k).map (fun l => l.map (toResult P metric)) ∧
            ((db.vectorIndexes[toLex (t, f)]? = some ix ∧ indexes = db.vectorIndexes) ∨
              (Filled P nodes t f ix ∧
                indexes = db.vectorIndexes.insert (toLex (t, f)) ix))) := by
  cases hcached : db.vectorIndexes[toLex (t, f)]? with
  | some ix =>
      obtain ⟨hfor, hsearch⟩ :=
        similaritySearch_of_index (F := F) (P := P) hcached (hmade _ ix hcached) q k metric
      exact ⟨_, _, _, hsearch, h, .inr ⟨ix, hfor, rfl, .inl ⟨rfl, rfl⟩⟩⟩
  | none =>
      rcases getAll_spec (F := F) h t with hread | ⟨l, s', hread, hs', hl, hids⟩
      · obtain ⟨hfor, hsearch⟩ := similaritySearch_of_error (P := P) hcached hread q k metric
        exact ⟨_, _, _, hsearch, h, .inl ⟨hfor, nofun, rfl⟩⟩
      · cases hdim : detectDimension f l with
        | none =>
            obtain ⟨hfor, answer, hanswer, hsearch⟩ :=
              similaritySearch_of_none (P := P) hcached hread hdim q k metric
            exact ⟨_, _, _, hsearch, hs', .inl ⟨hfor, hanswer, rfl⟩⟩
        | some dimension =>
            obtain ⟨hfor, hsearch⟩ :=
              similaritySearch_of_nodes (P := P) hcached hread hdim rfl q k metric
            exact ⟨_, _, _, hsearch, hs',
              .inr ⟨_, hfor, rfl, .inr ⟨filled_spec h hl hids hdim rfl, rfl⟩⟩⟩

/-- A rebuild fills the index of the key, or leaves the indexes as they are. -/
theorem rebuildVectorIndex_spec (h : Keeps nodes db.tiered) (t f : String) :
    ∃ answer tiered indexes,
      db.rebuildVectorIndex F P t f = (answer, ⟨tiered, indexes⟩) ∧ Keeps nodes tiered ∧
        ((answer = none ∧ indexes = db.vectorIndexes) ∨
          (answer.isSome ∧ ∃ ix, Filled P nodes t f ix ∧
            indexes = db.vectorIndexes.insert (toLex (t, f)) ix)) := by
  unfold Handle.rebuildVectorIndex
  rcases getAll_spec (F := F) h t with hread | ⟨l, s', hread, hs', hl, hids⟩
  · rw [hread]
    exact ⟨_, _, _, rfl, h, .inl ⟨rfl, rfl⟩⟩
  · rw [hread]
    dsimp only
    cases hdim : detectDimension f l with
    | none => exact ⟨_, _, _, rfl, hs', .inl ⟨rfl, rfl⟩⟩
    | some dimension =>
        dsimp only
        cases hfill : l.foldlM (indexNode P f) (.withParams dimension 16 4 .cosine) with
        | none => exact ⟨_, _, _, rfl, hs', .inl ⟨rfl, rfl⟩⟩
        | some ix =>
            have hfilled := filled_spec (P := P) h hl hids hdim (indexNodes_of_foldlM hfill)
            exact ⟨_, _, _, rfl, hs', .inr ⟨rfl, ix, hfilled, rfl⟩⟩

end

end AresaDb.Vectors
