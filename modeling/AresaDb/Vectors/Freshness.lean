import AresaDb.Vectors.Steps

/-! # What a similarity search sees

A search of an index that nothing is outdated in returns live nodes, with the distances of their
current vectors.  When nothing is missing either and as many results are asked for as there are
nodes with a vector of the query's dimension, all of them are returned exactly if the index has that
dimension and is linked; with up to 17 vectors it is (`search_current`). -/

namespace AresaDb.Vectors

open AresaDb.Store

/-! ### Runs keep track -/

/-- The indexes are those of the current vectors, but for what is watched. -/
structure Tracks (P : Platform) (nodes : OrdMap NodeId Node) (w : Watched) : Prop where
  keeps : Keeps nodes w.db.tiered
  made : ∀ (key : VectorIndexKey) (ix : VectorIndex), w.db.vectorIndexes[key]? = some ix → Made ix
  small : ∀ (t f : String) (ix : VectorIndex), w.db.vectorIndexes[toLex (t, f)]? = some ix →
    w.outdated t f = false → ix.SmallComplete
  within : ∀ (t f : String) (ix : VectorIndex), w.db.vectorIndexes[toLex (t, f)]? = some ix →
    w.outdated t f = false → Within P ix (current nodes t f ix.dimension)
  covers : ∀ (t f : String) (ix : VectorIndex), w.db.vectorIndexes[toLex (t, f)]? = some ix →
    w.lacking t f = false → Covers P ix (current nodes t f ix.dimension)

section

variable {F : JsonFormat} {P : Platform} {U : Unicode} {nodes : OrdMap NodeId Node} {w : Watched}
  {op : VectorOp}

theorem tracks_new (P : Platform) (config : TieredConfig) (hasBucket : Bool) :
    Tracks P ∅ (.new config hasBucket) := by
  have hnone : ∀ (key : VectorIndexKey) (ix : VectorIndex),
      (Watched.new config hasBucket).db.vectorIndexes[key]? ≠ some ix := by
    intro key ix h
    rw [show (Watched.new config hasBucket).db.vectorIndexes[key]? = none from
      OrdMap.get_empty key] at h
    cases h
  exact ⟨keeps_new config hasBucket, fun key ix h => absurd h (hnone key ix),
    fun _ _ ix h => absurd h (hnone _ ix), fun _ _ ix h => absurd h (hnone _ ix),
    fun _ _ ix h => absurd h (hnone _ ix)⟩

theorem of_mark_eq_false {marks : String → String → Bool} {event : String → String → ℕ → Bool}
    {t f : String} (h : w.mark F P U op marks event t f = false) :
    (op.renews F P w.db t f = false → marks t f = false) ∧
      ∀ ix, (op.run F P U w.db).vectorIndexes[toLex (t, f)]? = some ix →
        event t f ix.dimension = false := by
  obtain ⟨hold, hevent⟩ := Bool.or_eq_false_iff.mp h
  refine ⟨fun hrenews => ?_, fun ix hix => ?_⟩
  · rw [hrenews] at hold
    simpa using hold
  · rw [hix] at hevent
    exact hevent

/-- A step that writes no node leaves an index as it is, or fills it. -/
theorem Tracks.read (h : Tracks P nodes w) (hkeeps : Keeps nodes (op.run F P U w.db).tiered)
    (hindexes : ∀ (t f : String) (ix : VectorIndex),
      (op.run F P U w.db).vectorIndexes[toLex (t, f)]? = some ix →
      (w.db.vectorIndexes[toLex (t, f)]? = some ix ∧ op.renews F P w.db t f = false) ∨
        Filled P nodes t f ix) :
    Tracks P nodes (w.step F P U op) where
  keeps := hkeeps
  made key ix hix := by
    rcases hindexes key.1 key.2 ix hix with ⟨hold, -⟩ | hfilled
    · exact h.made key ix hold
    · exact hfilled.made
  small t f ix hix houtdated := by
    rcases hindexes t f ix hix with ⟨hold, hrenews⟩ | hfilled
    · exact h.small t f ix hold ((of_mark_eq_false houtdated).1 hrenews)
    · exact hfilled.small
  within t f ix hix houtdated := by
    rcases hindexes t f ix hix with ⟨hold, hrenews⟩ | hfilled
    · exact h.within t f ix hold ((of_mark_eq_false houtdated).1 hrenews)
    · exact hfilled.within
  covers t f ix hix hlacking := by
    rcases hindexes t f ix hix with ⟨hold, hrenews⟩ | hfilled
    · exact h.covers t f ix hold ((of_mark_eq_false hlacking).1 hrenews)
    · exact hfilled.covers

/-- A step that changes nothing. -/
theorem Tracks.same (h : Tracks P nodes w) (hrun : op.run F P U w.db = w.db)
    (hrenews : ∀ t f, op.renews F P w.db t f = false) : Tracks P nodes (w.step F P U op) := by
  refine h.read (by rw [hrun]; exact h.keeps) fun t f ix hix => ?_
  rw [hrun] at hix
  exact .inl ⟨hix, hrenews t f⟩

/-! A write of a node `id` is followed by the index of every key. -/

section

variable {key : VectorIndexKey} {t f : String} {ix' : VectorIndex} {id : NodeId}
  {known told : Option (List Binary64)} {cur' : NodeId → Option (List Binary64)}

theorem Tracks.made_of_follows (h : Tracks P nodes w)
    (hfollows : Follows P w.db key ix' id known told) : Made ix' := by
  rcases hfollows with ⟨hold, -⟩ | ⟨ix, e, hbefore, -, -, hlearns⟩
  · exact h.made key ix' hold
  · refine ⟨hlearns.entered, ?_⟩
    rcases hbefore with hold | ⟨-, rfl⟩
    · rw [hlearns.alike.dimension]
      exact (h.made _ ix hold).alike.trans hlearns.alike
    · exact hlearns.alike

theorem Tracks.small_of_follows (h : Tracks P nodes w)
    (hfollows : Follows P w.db (toLex (t, f)) ix' id (w.db.vectorAt F t f ix'.dimension id) told)
    (hold : w.outdated t f = false) : ix'.SmallComplete := by
  rcases hfollows with ⟨hcached, -⟩ | ⟨ix, e, hbefore, hknown, -, hlearns⟩
  · exact h.small t f ix' hcached hold
  · rcases hbefore with hcached | ⟨-, rfl⟩
    · have hmade := h.made _ ix hcached
      refine (h.small t f ix hcached hold).insert (fun _ => hmade.entered) ?_ ?_ hlearns.insert
      · rw [hmade.alike.maxConnections, hmade.alike.efConstruction]
        exact width_withParams ix.dimension .cosine
      · rw [vectorAt_eq h.keeps, hlearns.alike.dimension] at hknown
        have hwithin := h.within t f ix hcached hold id
        rw [hknown] at hwithin
        by_contra hsome
        exact hsome (hwithin (Option.ne_none_iff_isSome.mp hsome))
    · exact (smallComplete_withParams _ 16 4 .cosine).insert (ready_withParams _ 16 4 .cosine)
        (width_withParams _ .cosine) (withParams_vectorOf _ 16 4 .cosine id) hlearns.insert

/-- When an index is told of the new vector, it has no other. -/
theorem Tracks.within_of_follows (h : Tracks P nodes w)
    (hfollows : Follows P w.db (toLex (t, f)) ix' id (w.db.vectorAt F t f ix'.dimension id) told)
    (hold : w.outdated t f = false)
    (hkept : ∀ i, id ≠ i → cur' i = current nodes t f ix'.dimension i)
    (hnode : told.isSome → cur' id = told) : Within P ix' cur' := by
  rcases hfollows with ⟨hcached, htold⟩ | ⟨ix, e, hbefore, -, htold, hlearns⟩
  · rw [htold, vectorAt_eq h.keeps] at hnode
    exact (h.within t f ix' hcached hold).keep hkept hnode
  · rw [htold] at hnode
    refine Within.learn ?_ hlearns hkept (hnode rfl)
    rcases hbefore with hcached | ⟨-, rfl⟩
    · rw [hlearns.alike.dimension]
      exact h.within t f ix hcached hold
    · intro i hi
      rw [withParams_vectorOf] at hi
      cases hi

/-- When an index is told of every new vector, and is begun with all there are, it has all. -/
theorem Tracks.covers_of_follows (h : Tracks P nodes w)
    (hfollows : Follows P w.db (toLex (t, f)) ix' id (w.db.vectorAt F t f ix'.dimension id) told)
    (hold : w.lacking t f = false)
    (hbegun : w.db.vectorIndexes[toLex (t, f)]? = none → w.db.matching F t f ix'.dimension = [])
    (hkept : ∀ i, id ≠ i → cur' i = current nodes t f ix'.dimension i)
    (hnode : (cur' id).isSome → cur' id = told) : Covers P ix' cur' := by
  rcases hfollows with ⟨hcached, htold⟩ | ⟨ix, e, hbefore, -, htold, hlearns⟩
  · rw [htold, vectorAt_eq h.keeps] at hnode
    exact (h.covers t f ix' hcached hold).keep hkept hnode
  · rw [htold] at hnode
    refine Covers.learn ?_ hlearns hkept hnode
    rcases hbefore with hcached | ⟨hnone, rfl⟩
    · rw [hlearns.alike.dimension]
      exact h.covers t f ix hcached hold
    · intro i hi
      have hi := (mem_matching (F := F) h.keeps).mpr hi
      rw [hbegun hnone] at hi
      cases hi

end

theorem Tracks.write (h : Tracks P nodes w) (hfresh : op.drawsFresh F w.db = true) {id : NodeId}
    {node : Option Node} (hwritten : op.written F w.db = some (id, node)) :
    Tracks P (put nodes id node) (w.step F P U op) := by
  obtain ⟨hkeeps, hindexes⟩ := run_of_written (P := P) (U := U) h.keeps
    (fun key ix hix _ => (h.made key ix hix).entered) hfresh hwritten
  have hkept : ∀ (t f : String) (d : ℕ) (i : NodeId), id ≠ i →
      current (put nodes id node) t f d i = current nodes t f d i := by
    intro t f d i hi
    rw [current, get_put, if_neg hi]
    rfl
  have hnew : ∀ (t f : String) (d : ℕ),
      current (put nodes id node) t f d id = node.bind (typedVector t f d) := by
    intro t f d
    rw [current, get_put, if_pos rfl]
  refine ⟨hkeeps, fun key ix' hix' => h.made_of_follows (hindexes key.1 key.2 ix' hix'),
    fun t f ix' hix' houtdated => ?_, fun t f ix' hix' houtdated => ?_,
    fun t f ix' hix' hlacking => ?_⟩
  · have hold := (of_mark_eq_false houtdated).1 (renews_of_written hwritten t f)
    exact h.small_of_follows (hindexes t f ix' hix') hold
  · obtain ⟨hold, hevent⟩ := of_mark_eq_false houtdated
    have hnode := of_outdates_eq_false hwritten (hevent ix' hix')
    rw [← hnew] at hnode
    exact h.within_of_follows (hindexes t f ix' hix') (hold (renews_of_written hwritten t f))
      (hkept t f _) hnode
  · obtain ⟨hold, hevent⟩ := of_mark_eq_false hlacking
    obtain ⟨hnode, hbegun⟩ := of_misses_eq_false hwritten (hevent ix' hix')
    rw [← hnew] at hnode
    exact h.covers_of_follows (hindexes t f ix' hix') (hold (renews_of_written hwritten t f)) hbegun
      (hkept t f _) hnode

/-- After an index was put in, a key has that one or, if it is another key, the one it had. -/
theorem of_get_insert_index {indexes : OrdMap VectorIndexKey VectorIndex} {t f t' f' : String}
    {ix ix' : VectorIndex}
    (h : (indexes.insert (toLex (t', f')) ix')[(toLex (t, f) : VectorIndexKey)]? = some ix) :
    (t' = t ∧ f' = f ∧ ix' = ix) ∨
      (¬ (t' = t ∧ f' = f) ∧ indexes[(toLex (t, f) : VectorIndexKey)]? = some ix) := by
  rw [OrdMap.get_insert] at h
  split_ifs at h with hkey
  · obtain ⟨ht, hf⟩ := Prod.mk.inj (toLex.injective hkey)
    exact .inl ⟨ht, hf, Option.some.inj h⟩
  · refine .inr ⟨?_, h⟩
    rintro ⟨rfl, rfl⟩
    exact hkey rfl

theorem Tracks.similaritySearch (h : Tracks P nodes w) (q : List Binary64) (t' f' : String) (k : ℕ)
    (metric : DistanceMetric) :
    Tracks P nodes (w.step F P U (.similaritySearch q t' f' k metric)) := by
  obtain ⟨answer, tiered, indexes, hsearch, hkeeps, hcase⟩ := similaritySearch_spec
    (F := F) (P := P) h.keeps (fun key ix hix => (h.made key ix hix).entered) q t' f' k metric
  have hrun : (VectorOp.similaritySearch q t' f' k metric).run F P U w.db = ⟨tiered, indexes⟩ :=
    congrArg Prod.snd hsearch
  refine h.read ?_ fun t f ix hix => ?_
  · rw [hrun]
    exact hkeeps
  · rw [hrun] at hix
    rcases hcase with ⟨-, -, rfl⟩ | ⟨ix', -, -, ⟨-, rfl⟩ | ⟨hfilled, rfl⟩⟩
    · exact .inl ⟨hix, rfl⟩
    · exact .inl ⟨hix, rfl⟩
    · obtain ⟨rfl, rfl, rfl⟩ | ⟨-, hold⟩ := of_get_insert_index hix
      · exact .inr hfilled
      · exact .inl ⟨hold, rfl⟩

theorem Tracks.rebuildVectorIndex (h : Tracks P nodes w) (t' f' : String) :
    Tracks P nodes (w.step F P U (.rebuildVectorIndex t' f')) := by
  obtain ⟨answer, tiered, indexes, hrebuild, hkeeps, hcase⟩ :=
    rebuildVectorIndex_spec (F := F) (P := P) h.keeps t' f'
  have hrun : (VectorOp.rebuildVectorIndex t' f').run F P U w.db = ⟨tiered, indexes⟩ :=
    congrArg Prod.snd hrebuild
  have hother : ∀ {t f : String}, ¬ (t' = t ∧ f' = f) →
      (VectorOp.rebuildVectorIndex t' f').renews F P w.db t f = false := by
    intro t f hne
    rw [VectorOp.renews, decide_eq_false hne]
    rfl
  refine h.read ?_ fun t f ix hix => ?_
  · rw [hrun]
    exact hkeeps
  · rw [hrun] at hix
    rcases hcase with ⟨rfl, rfl⟩ | ⟨-, ix', hfilled, rfl⟩
    · refine .inl ⟨hix, ?_⟩
      by_cases hkey : t' = t ∧ f' = f
      · obtain ⟨rfl, rfl⟩ := hkey
        rw [VectorOp.renews, hrebuild]
        exact Bool.and_false _
      · exact hother hkey
    · obtain ⟨rfl, rfl, rfl⟩ | ⟨hne, hold⟩ := of_get_insert_index hix
      · exact .inr hfilled
      · exact .inl ⟨hold, hother hne⟩

/-- Every step keeps track of the nodes that there are. -/
theorem Tracks.step (h : Tracks P nodes w) (hfresh : op.drawsFresh F w.db = true) :
    ∃ nodes', Tracks P nodes' (w.step F P U op) := by
  cases hwritten : op.written F w.db with
  | some e => exact ⟨_, h.write hfresh hwritten⟩
  | none =>
      refine ⟨nodes, ?_⟩
      cases op with
      | insertNode id now t properties =>
          refine h.same ?_ fun _ _ => rfl
          have hnone : Value.fromJson F properties = none := Option.map_eq_none_iff.mp hwritten
          simp [VectorOp.run, Handle.insertNode, Database.insertNode, hnone]
      | insertWithEmbedding id now t properties field e =>
          refine h.same ?_ fun _ _ => rfl
          have hnone : Value.fromJson F properties = none := Option.map_eq_none_iff.mp hwritten
          simp [VectorOp.run, Handle.insertWithEmbedding, hnone]
      | updateNode now id properties =>
          refine h.same ?_ fun _ _ => rfl
          have hnone := (update_spec h.keeps).1 hwritten
          simp [VectorOp.run, Handle.updateNode, hnone]
      | deleteNode id => cases hwritten
      | similaritySearch q t' f' k metric => exact h.similaritySearch q t' f' k metric
      | rebuildVectorIndex t' f' => exact h.rebuildVectorIndex t' f'

/-- What is reached keeps track. -/
theorem tracks_reached {config : TieredConfig} {hasBucket : Bool} {ops : List VectorOp}
    (hfresh : Watched.Fresh F P U config hasBucket ops) :
    ∃ nodes, Tracks P nodes (Watched.reached F P U config hasBucket ops) := by
  have hstep : ∀ (w : Watched) (op : VectorOp), (∃ nodes, Tracks P nodes w) →
      op.drawsFresh F w.db = true → ∃ nodes, Tracks P nodes (w.step F P U op) := by
    rintro w op ⟨nodes, h⟩ hop
    exact h.step hop
  exact Run.Along.invariant hstep hfresh ⟨∅, tracks_new P config hasBucket⟩

end

/-! ### The search -/

namespace Handle

variable (F : JsonFormat) (P : Platform) (db : Handle) (q : List Binary64) (t f : String) (k : ℕ)
  (metric : DistanceMetric)

/-- Every result is a live node of the type with a vector of the query's dimension, and has the
distance of that vector. -/
def SeesCurrent : Prop :=
  ∀ l, (db.similaritySearch F P q t f k metric).1 = some l → ∀ r ∈ l,
    ∃ v, db.vectorAt F t f q.length r.nodeId = some v ∧ r.distance = cosineDistance P q v

/-- There are at most `k` nodes of the type with a vector of the query's dimension. -/
def AsksAll : Prop := (db.matching F t f q.length).length ≤ k

instance : Decidable (db.AsksAll F q t f k) :=
  inferInstanceAs (Decidable ((db.matching F t f q.length).length ≤ k))

/-- Every node of the type with a vector of the query's dimension is a result. -/
def SeesAll : Prop :=
  ∀ id, (db.vectorAt F t f q.length id).isSome →
    ∃ l, (db.similaritySearch F P q t f k metric).1 = some l ∧ ∃ r ∈ l, r.nodeId = id

/-- A search sees current data. -/
def Exact : Prop :=
  db.SeesCurrent F P q t f k metric ∧ (db.AsksAll F q t f k → db.SeesAll F P q t f k metric)

/-- The index that a search goes to has the dimension of the query, and is linked. -/
def Suits : Prop :=
  ∃ ix, db.indexFor F P t f = some ix ∧ ix.dimension = q.length ∧ ix.Linked

end Handle

section

variable {F : JsonFormat} {P : Platform} {nodes : OrdMap NodeId Node} {w : Watched}
  {q : List Binary64} {t f : String} {k : ℕ} {metric : DistanceMetric}

/-- An index that is within and covers the current vectors has as many. -/
theorem size_eq {db : Handle} (h : Keeps nodes db.tiered) {ix : VectorIndex} {dimension : ℕ}
    (hwithin : Within P ix (current nodes t f dimension))
    (hcovers : Covers P ix (current nodes t f dimension)) :
    (db.matching F t f dimension).length = ix.vectors.size := by
  rw [← Std.ExtTreeMap.length_keys]
  refine List.Perm.length_eq ((List.perm_ext_iff_of_nodup (nodup_matching t f dimension)
    Std.ExtTreeMap.nodup_keys).mpr fun id => ?_)
  rw [mem_matching h, VectorIndex.mem_keys]
  constructor
  · intro hid
    rw [hcovers id hid, Option.isSome_map]
    exact hid
  · intro hid
    have heq := hwithin id hid
    rwa [heq, Option.isSome_map] at hid

/-- The index that a search goes to, and what it answers. -/
theorem Tracks.search (h : Tracks P nodes w) (q : List Binary64) (t f : String) (k : ℕ)
    (metric : DistanceMetric) :
    (w.db.indexFor F P t f = none ∧
        ∀ l, (w.db.similaritySearch F P q t f k metric).1 = some l → l = []) ∨
      ∃ ix, w.db.indexFor F P t f = some ix ∧
        (w.db.similaritySearch F P q t f k metric).1 =
          (ix.search P q k).map (fun l => l.map (toResult P metric)) ∧
        Made ix ∧ (w.outdated t f = false → ix.SmallComplete) ∧
        (w.outdated t f = false → Within P ix (current nodes t f ix.dimension)) ∧
        (w.lacking t f = false → Covers P ix (current nodes t f ix.dimension)) := by
  obtain ⟨answer, tiered, indexes, hsearch, -, hcase⟩ := similaritySearch_spec (F := F) (P := P)
    h.keeps (fun key ix hix => (h.made key ix hix).entered) q t f k metric
  rw [hsearch]
  rcases hcase with ⟨hfor, hnil, -⟩ | ⟨ix, hfor, rfl, ⟨hcached, -⟩ | ⟨hfilled, -⟩⟩
  · exact .inl ⟨hfor, hnil⟩
  · exact .inr ⟨ix, hfor, rfl, h.made _ ix hcached, h.small t f ix hcached,
      h.within t f ix hcached, h.covers t f ix hcached⟩
  · exact .inr ⟨ix, hfor, rfl, hfilled.made, fun _ => hfilled.small, fun _ => hfilled.within,
      fun _ => hfilled.covers⟩

theorem Tracks.seesCurrent (h : Tracks P nodes w) (houtdated : w.outdated t f = false) :
    w.db.SeesCurrent F P q t f k metric := by
  intro l hl r hr
  rcases h.search (F := F) q t f k metric with
    ⟨-, hnil⟩ | ⟨ix, -, hsearch, hmade, -, hwithin, -⟩
  · rw [hnil l hl] at hr
    cases hr
  · rw [hsearch] at hl
    obtain ⟨l', hl', rfl⟩ := Option.map_eq_some_iff.mp hl
    obtain ⟨e, he, rfl⟩ := List.mem_map.mp hr
    obtain ⟨hdim, hsound⟩ := VectorIndex.search_sound hmade.entered hl'
    obtain ⟨v', hv', hdistance⟩ := hsound e he
    have hcur := hwithin houtdated e.1 (Option.isSome_of_eq_some hv')
    rw [hv'] at hcur
    obtain ⟨v, hv, rfl⟩ := Option.map_eq_some_iff.mp hcur.symm
    refine ⟨v, ?_, ?_⟩
    · rw [vectorAt_eq h.keeps, hdim]
      exact hv
    · refine hdistance.trans ?_
      rw [VectorIndex.distance, hmade.alike.metric]
      rfl

theorem Tracks.seesAll_iff (h : Tracks P nodes w) (houtdated : w.outdated t f = false)
    (hlacking : w.lacking t f = false) (hk : w.db.AsksAll F q t f k) :
    w.db.SeesAll F P q t f k metric ↔
      ∀ id, (w.db.vectorAt F t f q.length id).isSome → w.db.Suits F P q t f := by
  unfold Handle.SeesAll Handle.Suits Handle.AsksAll at *
  rw [vectorAt_eq h.keeps]
  rcases h.search (F := F) q t f k metric with
    ⟨hfor, hnil⟩ | ⟨ix, hfor, hsearch, hmade, -, hwithin, hcovers⟩
  · rw [hfor]
    constructor
    · intro hall id hid
      obtain ⟨l, hl, r, hr, -⟩ := hall id hid
      rw [hnil l hl] at hr
      cases hr
    · intro hsuits id hid
      obtain ⟨ix, hix, -⟩ := hsuits id hid
      cases hix
  · have hwithin := hwithin houtdated
    have hcovers := hcovers hlacking
    rw [hfor, hsearch]
    by_cases hdim : q.length = ix.dimension
    · rw [hdim] at hk ⊢
      have hsize : ix.vectors.size ≤ k := by
        rwa [size_eq h.keeps hwithin hcovers] at hk
      have hcomplete := VectorIndex.search_complete_iff (P := P) hmade.entered hdim hsize
      constructor
      · intro hall id hid
        refine ⟨ix, rfl, rfl, hcomplete.mp ?_⟩
        obtain ⟨_, hanswer, -⟩ := hall id hid
        obtain ⟨l, hl, -⟩ := Option.map_eq_some_iff.mp hanswer
        refine ⟨l, hl, fun id' hid' => ?_⟩
        have heq := hwithin id' hid'
        rw [heq, Option.isSome_map] at hid'
        obtain ⟨_, hanswer', r, hr, rfl⟩ := hall id' hid'
        rw [hl] at hanswer'
        obtain rfl := Option.some.inj hanswer'
        obtain ⟨e, he, rfl⟩ := List.mem_map.mp hr
        exact ⟨e.2, he⟩
      · intro hsuits id hid
        obtain ⟨ix', hix', -, hlinked⟩ := hsuits id hid
        obtain rfl := Option.some.inj hix'
        obtain ⟨l, hl, hall⟩ := hcomplete.mpr hlinked
        obtain ⟨d, hd⟩ := hall id (by rw [hcovers id hid, Option.isSome_map]; exact hid)
        rw [hl]
        exact ⟨_, rfl, toResult P metric (id, d), List.mem_map_of_mem hd, rfl⟩
    · have hnone : ix.search P q k = none := if_neg hdim
      rw [hnone]
      constructor
      · intro hall id hid
        obtain ⟨l, hl, -⟩ := hall id hid
        cases hl
      · intro hsuits id hid
        obtain ⟨ix', hix', hdim', -⟩ := hsuits id hid
        obtain rfl := Option.some.inj hix'
        exact absurd hdim'.symm hdim

/-- A small index is linked. -/
theorem Tracks.linked (h : Tracks P nodes w) (houtdated : w.outdated t f = false) {ix : VectorIndex}
    (hix : w.db.indexFor F P t f = some ix) (hsize : ix.vectors.size ≤ 17) : ix.Linked := by
  rcases h.search (F := F) [] t f 0 .cosine with
    ⟨hfor, -⟩ | ⟨ix', hfor, -, hmade, hsmall, -, -⟩
  · rw [hfor] at hix
    cases hix
  · obtain rfl := Option.some.inj (hfor.symm.trans hix)
    refine (hsmall houtdated ?_).linked hmade.entered
    rw [hmade.alike.maxConnections]
    exact hsize

/-- A search is not exact when it misses an id. -/
theorem not_exact_of_missed {db : Handle} (hk : db.AsksAll F q t f k) (id : NodeId)
    (hid : (db.vectorAt F t f q.length id).isSome)
    (hmissed : id ∉ ((db.similaritySearch F P q t f k metric).1.getD []).map
      SimilarityResult.nodeId) : ¬ db.Exact F P q t f k metric := by
  rintro ⟨-, hall⟩
  obtain ⟨l, hl, r, hr, rfl⟩ := hall hk id hid
  rw [hl] at hmissed
  exact hmissed (List.mem_map_of_mem hr)

/-- A search is not exact when it returns an id without a vector. -/
theorem not_exact_of_gone {db : Handle} (id : NodeId)
    (hid : id ∈ ((db.similaritySearch F P q t f k metric).1.getD []).map SimilarityResult.nodeId)
    (hgone : db.vectorAt F t f q.length id = none) : ¬ db.Exact F P q t f k metric := by
  rintro ⟨hcurrent, -⟩
  obtain ⟨r, hr, rfl⟩ := List.mem_map.mp hid
  cases hl : (db.similaritySearch F P q t f k metric).1 with
  | none =>
      rw [hl] at hr
      cases hr
  | some l =>
      rw [hl] at hr
      obtain ⟨v, hv, -⟩ := hcurrent l hl r hr
      rw [hgone] at hv
      cases hv

end

/-! ### Runs on integers -/

/-- The integer that a datum is. -/
def toInteger (x : Binary64) : ℤ :=
  let m : ℕ := if x.magnitude = 0 then 0 else 2 ^ 52 + x.magnitude % 2 ^ 52
  let e : ℕ := x.magnitude / 2 ^ 52
  let n : ℕ := if 1075 ≤ e then m * 2 ^ (e - 1075) else m / 2 ^ (1075 - e)
  if x.isNegative then -n else n

/-- The operations, where they are exact. -/
def integerArith : Arith where
  add x y := .ofInt (toInteger x + toInteger y)
  sub x y := .ofInt (toInteger x - toInteger y)
  mul x y := .ofInt (toInteger x * toInteger y)
  div x y := .ofInt (toInteger x / toInteger y)
  sqrt x := .ofInt (Nat.sqrt (toInteger x).toNat)
  zero := .ofInt 0

def plainPlatform : Platform := ⟨integerArith, integerArith, fun _ => 0, fun _ => true⟩

/-- What is reached on integers. -/
def sampleReached (ops : List VectorOp) : Watched :=
  .reached plainFormat plainPlatform asciiUnicode ⟨1000, 0, false⟩ false ops

/-- A document with a vector of integers, inserted past the index. -/
def plainInsert (id : BitVec 128) (v : List ℤ) : VectorOp :=
  .insertNode ⟨id⟩ 10 "doc" (.object [("v", .object [("$vector", .array (v.map .int))])])

/-- A document with an embedding of integers. -/
def embed (id : BitVec 128) (v : List ℤ) : VectorOp :=
  .insertWithEmbedding ⟨id⟩ 10 "doc" (.object []) "v" (v.map .ofInt)

/-- What a similarity search sees, after any run. -/
theorem search_current (F : JsonFormat) (P : Platform) (U : Unicode) (config : TieredConfig)
    (hasBucket : Bool) (ops : List VectorOp) (hfresh : Watched.Fresh F P U config hasBucket ops)
    {w : Watched} (hw : Watched.reached F P U config hasBucket ops = w) (q : List Binary64)
    (t f : String) (k : ℕ) (metric : DistanceMetric) (houtdated : w.outdated t f = false) :
    w.db.SeesCurrent F P q t f k metric ∧
      (w.lacking t f = false → w.db.AsksAll F q t f k →
        (w.db.SeesAll F P q t f k metric ↔
          ∀ id, (w.db.vectorAt F t f q.length id).isSome → w.db.Suits F P q t f)) ∧
      ∀ ix, w.db.indexFor F P t f = some ix → ix.vectors.size ≤ 17 → ix.Linked := by
  subst hw
  obtain ⟨nodes, h⟩ := tracks_reached hfresh
  exact ⟨h.seesCurrent houtdated, fun hlacking hk => h.seesAll_iff houtdated hlacking hk,
    fun ix hix hsize => h.linked houtdated hix hsize⟩

/-- An index that is filled by a search, then told of an embedding, then rebuilt. -/
def sampleVectors : List VectorOp :=
  [plainInsert 1 [1, 0], .similaritySearch [.ofInt 1, .ofInt 0] "doc" "v" 5 .cosine,
    embed 2 [0, 1], .updateNode 20 ⟨1⟩ (.object [("title", .string "a")]), plainInsert 3 [0, -1],
    .rebuildVectorIndex "doc" "v"]

theorem search_current_sample :
    (sampleReached sampleVectors).db.SeesCurrent plainFormat plainPlatform [.ofInt 0, .ofInt 1]
        "doc" "v" 3 .cosine ∧
      ((sampleReached sampleVectors).db.SeesAll plainFormat plainPlatform [.ofInt 0, .ofInt 1]
          "doc" "v" 3 .cosine ↔
        ∀ id, ((sampleReached sampleVectors).db.vectorAt plainFormat "doc" "v" 2 id).isSome →
          (sampleReached sampleVectors).db.Suits plainFormat plainPlatform [.ofInt 0, .ofInt 1]
            "doc" "v") := by
  obtain ⟨hcurrent, hall, -⟩ := search_current plainFormat plainPlatform asciiUnicode
    ⟨1000, 0, false⟩ false sampleVectors (by decide +kernel) rfl [.ofInt 0, .ofInt 1] "doc" "v" 3
    .cosine (by decide +kernel)
  exact ⟨hcurrent, hall (by decide +kernel) (by decide +kernel)⟩

/-- A search is not exact after a run on integers. -/
def FailsAfter (ops : List VectorOp) (q : List ℤ) (k : ℕ) : Prop :=
  Watched.Fresh plainFormat plainPlatform asciiUnicode ⟨1000, 0, false⟩ false ops ∧
    ¬ (sampleReached ops).db.Exact plainFormat plainPlatform (q.map .ofInt) "doc" "v" k .cosine

/-- A search misses a vector that was inserted past the index, returns one that was deleted, fails
on a dimension that is not that of the index, and of eighteen vectors finds seventeen. -/
theorem search_not_exact :
    FailsAfter [embed 1 [1, 0], plainInsert 2 [0, 1]] [0, 1] 2 ∧
      FailsAfter [embed 1 [1, 0], .deleteNode ⟨1⟩] [0, 1] 2 ∧
      FailsAfter [embed 1 [1], embed 2 [0, 1]] [0, 1] 2 ∧
      FailsAfter ((List.range 18).map fun i => embed (.ofNat 128 i) [1]) [1] 18 := by
  refine ⟨⟨?_, not_exact_of_missed ?_ ⟨2⟩ ?_ ?_⟩, ⟨?_, not_exact_of_gone ⟨1⟩ ?_ ?_⟩,
    ⟨?_, not_exact_of_missed ?_ ⟨2⟩ ?_ ?_⟩, ⟨?_, not_exact_of_missed ?_ ⟨17⟩ ?_ ?_⟩⟩ <;>
    decide +kernel

end AresaDb.Vectors
