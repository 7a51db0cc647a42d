import AresaDb.Vectors.TopK

/-! # Metrics

In exact arithmetic the cosine distance of normalized vectors is that of the vectors themselves, so
a search of the index for all there is agrees with the scan under the cosine metric.  Under another
metric it agrees exactly when this has the cosine distances too (`similaritySearch_honours_iff`):
the index is made with the cosine metric, and the metric that was asked for makes no difference to
what is found. -/

namespace AresaDb.Vectors.Generic

open AresaDb.Store

/-! ### What an insert stores -/

section

variable {α : Type}

theorem VectorEntry.push_vector (maxConnections : ℕ) (entry : VectorEntry α) (id : NodeId) :
    (entry.push maxConnections id).vector = entry.vector := by
  unfold push
  split_ifs <;> rfl

theorem VectorEntry.pushes_vector (maxConnections : ℕ) (entry : VectorEntry α) (ids : List NodeId) :
    (ids.foldl (push maxConnections) entry).vector = entry.vector := by
  induction ids generalizing entry with
  | nil => rfl
  | cons id ids ih => exact (ih _).trans (push_vector maxConnections entry id)

theorem linksBack_vector (maxConnections : ℕ) (id : NodeId)
    (vectors : OrdMap NodeId (VectorEntry α)) (ids : List NodeId) (i : NodeId) :
    (ids.foldl (linkBack maxConnections id) vectors)[i]?.map VectorEntry.vector =
      vectors[i]?.map VectorEntry.vector := by
  induction ids generalizing vectors with
  | nil => rfl
  | cons n ids ih =>
      refine (ih _).trans ?_
      unfold linkBack
      cases h : vectors[n]? with
      | none => rfl
      | some neighbor =>
          dsimp only
          rw [OrdMap.get_insert]
          split_ifs with hi
          · subst hi
            rw [h]
            exact congrArg some (neighbor.push_vector maxConnections id)
          · rfl

/-- An index of vectors with their ids, made by the first of them. -/
structure Holds (A : Numbers α) (dimension : ℕ) (vs : List (NodeId × List α)) (ix : VectorIndex α) :
    Prop where
  dimension : ix.dimension = dimension
  metric : ix.metric = .cosine
  efConstruction : ix.efConstruction = 100
  entered : ix.vectors.isEmpty = false → ix.entryPoint.isSome
  vectors : ∀ i w, ix.vectorOf i = some w ↔
    ∃ v, (i, v) ∈ vs ∧ VectorIndex.normalize A v = w

variable {A : Numbers α} {dimension : ℕ} {vs : List (NodeId × List α)} {ix : VectorIndex α}

theorem holds_withParams (A : Numbers α) (dimension : ℕ) :
    Holds A dimension [] (.withParams dimension 16 4 .cosine) where
  dimension := rfl
  metric := rfl
  efConstruction := rfl
  entered h := by cases h
  vectors i w := by
    have hnone : (VectorIndex.withParams dimension 16 4 .cosine : VectorIndex α).vectorOf i =
        none := by
      unfold VectorIndex.vectorOf VectorIndex.withParams
      rw [OrdMap.get_empty]
      rfl
    rw [hnone]
    simp

theorem Holds.insert (h : Holds A dimension vs ix) (layerOf : NodeId → ℕ) {id : NodeId}
    (hid : id ∉ vs.map Prod.fst) {v : List α} (hv : v.length = dimension) :
    ∃ ix', ix.insert A layerOf id v = some ix' ∧ Holds A dimension (vs ++ [(id, v)]) ix' := by
  have hdim : v.length = ix.dimension := hv.trans h.dimension.symm
  -- whatever the links are, the vectors are the old ones and the new one
  have hnew : ∀ ix' : VectorIndex α, ix'.dimension = ix.dimension → ix'.metric = ix.metric →
      ix'.efConstruction = ix.efConstruction → ix'.entryPoint.isSome →
      (∀ i, ix'.vectorOf i =
        if id = i then some (VectorIndex.normalize A v) else ix.vectorOf i) →
      Holds A dimension (vs ++ [(id, v)]) ix' := by
    intro ix' hdim' hmetric hef hentry hvectors
    refine ⟨hdim'.trans h.dimension, hmetric.trans h.metric, hef.trans h.efConstruction,
      fun _ => hentry, fun i w => ?_⟩
    rw [hvectors]
    split_ifs with hi
    · subst hi
      have hout : ∀ v', (id, v') ∉ vs := fun v' hmem => hid (List.mem_map_of_mem hmem)
      simp [hout]
    · rw [h.vectors]
      simp [Ne.symm hi]
  unfold VectorIndex.insert
  rw [if_pos hdim]
  by_cases hempty : ix.vectors.isEmpty = true
  · rw [if_pos hempty]
    refine ⟨_, rfl, hnew _ rfl rfl rfl rfl fun i => ?_⟩
    unfold VectorIndex.vectorOf
    dsimp only
    rw [OrdMap.get_insert]
    split_ifs <;> rfl
  · rw [if_neg hempty]
    obtain ⟨ep, hep⟩ := Option.isSome_iff_exists.mp (h.entered (Bool.eq_false_iff.mpr hempty))
    rw [hep]
    refine ⟨_, rfl, hnew _ rfl rfl rfl ?_ fun i => ?_⟩
    · dsimp only
      split_ifs <;> rfl
    · unfold VectorIndex.vectorOf
      dsimp only
      rw [OrdMap.get_insert]
      split_ifs
      · exact congrArg some (VectorEntry.pushes_vector _ _ _)
      · exact linksBack_vector _ _ _ _ _

/-- The index after inserts with embeddings. -/
def embedded (P : Platform α) (vs : List (NodeId × List α)) : Option (VectorIndex α) :=
  vs.foldl (fun index e => embed P index e.1 e.2) none

theorem holds_embedded (P : Platform α) (hids : (vs.map Prod.fst).Nodup)
    (hdim : ∀ e ∈ vs, e.2.length = dimension) (hvs : vs ≠ []) :
    ∃ ix, embedded P vs = some ix ∧ Holds P.f32 dimension vs ix := by
  have hstep : ∀ (xs seen : List (NodeId × List α)) (index : Option (VectorIndex α)),
      Holds P.f32 dimension seen (getOrCreateVectorIndex index dimension) →
      ((seen ++ xs).map Prod.fst).Nodup → (∀ e ∈ xs, e.2.length = dimension) → xs ≠ [] →
      ∃ ix, xs.foldl (fun index e => embed P index e.1 e.2) index = some ix ∧
        Holds P.f32 dimension (seen ++ xs) ix := by
    intro xs
    induction xs with
    | nil => exact fun _ _ _ _ _ hne => absurd rfl hne
    | cons e xs ih =>
        intro seen index h hnodup hdims _
        obtain ⟨hdim, hdims⟩ := List.forall_mem_cons.mp hdims
        have hid : e.1 ∉ seen.map Prod.fst := by
          rw [List.map_append, List.nodup_append'] at hnodup
          exact fun hmem => hnodup.2.2 hmem List.mem_cons_self
        obtain ⟨ix, hinsert, hix⟩ := h.insert P.layer hid hdim
        have hembed : embed P index e.1 e.2 = some ix := by
          rw [embed, hdim, hinsert]
          rfl
        rw [List.foldl_cons, hembed]
        cases xs with
        | nil => exact ⟨ix, rfl, hix⟩
        | cons e' xs =>
            have hassoc : seen ++ e :: e' :: xs = (seen ++ [e]) ++ e' :: xs := by simp
            rw [hassoc] at hnodup ⊢
            exact ih (seen ++ [e]) (some ix) hix hnodup hdims (List.cons_ne_nil _ _)
  exact hstep vs [] none (holds_withParams P.f32 dimension) hids hdim hvs

end

/-! ### Exact arithmetic -/

noncomputable section

/-- The operations on real numbers. -/
def reals : Numbers ℝ where
  add := (· + ·)
  sub := (· - ·)
  mul := (· * ·)
  div := (· / ·)
  sqrt := Real.sqrt
  neg := (- ·)
  abs x := |x|
  emptySum := 0
  zero := 0
  one := 1
  lt x y := decide (x < y)
  eq x y := decide (x = y)

theorem ordered_reals : reals.Ordered where
  lt_iff _ _ := decide_eq_true_iff
  neg_neg := neg_neg
  neg_lt _ _ := neg_lt_neg_iff

/-- No rounding at either width. -/
def exactPlatform (layer : NodeId → ℕ) : Platform ℝ := ⟨reals, reals, layer, fun _ => true⟩

def NonZero (v : List ℝ) : Prop := ∃ x ∈ v, x ≠ 0

/-- The square of the length of a vector. -/
def normSq (v : List ℝ) : ℝ := (v.map fun x => x * x).sum

/-- The cosine distance. -/
def cosineDist (q v : List ℝ) : ℝ :=
  1 - (List.zipWith (· * ·) q v).sum / √(normSq q * normSq v)

theorem normSq_pos {v : List ℝ} (h : NonZero v) : 0 < normSq v := by
  obtain ⟨x, hx, hne⟩ := h
  have hnonneg : ∀ y ∈ v.map fun x => x * x, 0 ≤ y := by
    intro y hy
    obtain ⟨z, -, rfl⟩ := List.mem_map.mp hy
    exact mul_self_nonneg z
  have hle : x * x ≤ normSq v := List.single_le_sum hnonneg _ (List.mem_map_of_mem hx)
  exact (mul_self_pos.mpr hne).trans_le hle

theorem sum_reals (l : List ℝ) : reals.sum l = l.sum := List.sum_eq_foldl.symm

theorem sum64_exact (layer : NodeId → ℕ) (l : List ℝ) : sum64 (exactPlatform layer) l = l.sum :=
  List.sum_eq_foldl.symm

theorem normalize_reals {v : List ℝ} (h : NonZero v) :
    VectorIndex.normalize reals v = v.map fun x => x / √(normSq v) := by
  have hmag : reals.sqrt (reals.sum (v.map fun x => reals.mul x x)) = √(normSq v) :=
    congrArg Real.sqrt (sum_reals _)
  unfold VectorIndex.normalize
  rw [hmag]
  exact if_pos (decide_eq_true (Real.sqrt_pos.mpr (normSq_pos h)))

/-- Lengths can be taken out of a product. -/
theorem dot_div (q v : List ℝ) (m n : ℝ) :
    (List.zipWith (· * ·) (q.map fun x => x / m) (v.map fun x => x / n)).sum =
      (List.zipWith (· * ·) q v).sum / (m * n) := by
  induction q generalizing v with
  | nil => simp
  | cons x q ih =>
      cases v with
      | nil => simp
      | cons y v =>
          simp only [List.map_cons, List.zipWith_cons_cons, List.sum_cons, ih]
          rw [div_mul_div_comm, ← add_div]

/-- The distance of the index is that of the vectors before they are normalized. -/
theorem distance_normalize {ix : VectorIndex ℝ} (hmetric : ix.metric = .cosine) {q v : List ℝ}
    (hq : NonZero q) (hv : NonZero v) :
    ix.distance reals (VectorIndex.normalize reals q) (VectorIndex.normalize reals v) =
      cosineDist q v := by
  have hdot : ∀ a b : List ℝ, reals.dot a b = (List.zipWith (· * ·) a b).sum :=
    fun a b => sum_reals _
  unfold VectorIndex.distance cosineDist
  rw [hmetric, normalize_reals hq, normalize_reals hv]
  dsimp only
  rw [hdot, dot_div, ← Real.sqrt_mul (normSq_pos hq).le]
  rfl

section

variable (layer : NodeId → ℕ) (metric : DistanceMetric) (q : List ℝ)

/-- The distance of a scan. -/
def metricDistance (v : List ℝ) : Option ℝ :=
  (computeSimilarity (exactPlatform layer) metric q v).map Prod.snd

variable {q}

theorem metricDistance_cosine {v : List ℝ} (hq : NonZero q) (hv : NonZero v)
    (hlength : q.length = v.length) :
    metricDistance layer .cosine q v = some (cosineDist q v) := by
  have hempty : q.isEmpty = false := by
    obtain ⟨x, hx, -⟩ := hq
    cases q with
    | nil => cases hx
    | cons y q => rfl
  have hmag : √(normSq q * normSq v) ≠ 0 :=
    (Real.sqrt_pos.mpr (mul_pos (normSq_pos hq) (normSq_pos hv))).ne'
  have hsim : cosineSimilarity (exactPlatform layer) q v =
      some ((List.zipWith (· * ·) q v).sum / √(normSq q * normSq v)) := by
    unfold cosineSimilarity
    rw [if_pos ⟨hlength, hempty⟩, sum64_exact, sum64_exact, sum64_exact]
    exact if_neg fun heq => hmag (of_decide_eq_true heq)
  unfold metricDistance computeSimilarity
  rw [hsim]
  rfl

variable {layer metric}

theorem euclideanDistance_nonneg {v : List ℝ} {d : ℝ}
    (h : euclideanDistance (exactPlatform layer) q v = some d) : 0 ≤ d := by
  unfold euclideanDistance at h
  split_ifs at h
  rw [← Option.some.inj h]
  exact Real.sqrt_nonneg _

theorem manhattanDistance_nonneg {v : List ℝ} {d : ℝ}
    (h : manhattanDistance (exactPlatform layer) q v = some d) : 0 ≤ d := by
  unfold manhattanDistance at h
  split_ifs at h
  rw [← Option.some.inj h, sum64_exact]
  refine List.sum_nonneg fun x hx => ?_
  obtain ⟨y, -, rfl⟩ := List.mem_map.mp hx
  exact abs_nonneg y

/-- Distances that are not negative are in the reversed order of their scores. -/
theorem near_le {d d' : ℝ} (hd : 0 ≤ d) (hd' : 0 ≤ d') (h : 1 / (1 + d') ≤ 1 / (1 + d)) :
    d ≤ d' := by
  rw [one_div_le_one_div (by linarith) (by linarith)] at h
  linarith

/-- A vector with a higher score is no farther. -/
theorem distance_le_of_score {v v' : List ℝ} {e e' : ℝ × ℝ}
    (h : computeSimilarity (exactPlatform layer) metric q v = some e)
    (h' : computeSimilarity (exactPlatform layer) metric q v' = some e') (hle : e'.1 ≤ e.1) :
    e.2 ≤ e'.2 := by
  unfold computeSimilarity at h h'
  cases metric with
  | cosine =>
      obtain ⟨sim, -, rfl⟩ := Option.map_eq_some_iff.mp h
      obtain ⟨sim', -, rfl⟩ := Option.map_eq_some_iff.mp h'
      exact sub_le_sub_left hle 1
  | euclidean =>
      obtain ⟨d, hd, rfl⟩ := Option.map_eq_some_iff.mp h
      obtain ⟨d', hd', rfl⟩ := Option.map_eq_some_iff.mp h'
      exact near_le (euclideanDistance_nonneg hd) (euclideanDistance_nonneg hd') hle
  | dotProduct =>
      obtain ⟨dot, -, rfl⟩ := Option.map_eq_some_iff.mp h
      obtain ⟨dot', -, rfl⟩ := Option.map_eq_some_iff.mp h'
      exact neg_le_neg hle
  | manhattan =>
      obtain ⟨d, hd, rfl⟩ := Option.map_eq_some_iff.mp h
      obtain ⟨d', hd', rfl⟩ := Option.map_eq_some_iff.mp h'
      exact near_le (manhattanDistance_nonneg hd) (manhattanDistance_nonneg hd') hle

/-- The vectors of nodes, with their ids. -/
def fieldVectors (nodes : List (FieldNode ℝ)) : List (NodeId × List ℝ) :=
  nodes.filterMap fun node => node.2.map fun v => (node.1, v)

theorem scored_eq (nodes : List (FieldNode ℝ)) :
    scored (exactPlatform layer) metric q nodes = (fieldVectors nodes).filterMap fun e =>
      (computeSimilarity (exactPlatform layer) metric q e.2).map fun s => ⟨e.1, s.1, s.2⟩ := by
  unfold scored fieldVectors
  rw [List.filterMap_filterMap]
  refine List.filterMap_congr fun node _ => ?_
  obtain ⟨id, v⟩ := node
  cases v with
  | none => rfl
  | some v =>
      simp only [Option.bind_eq_bind, Option.bind_some, Option.map_some]
      cases computeSimilarity (exactPlatform layer) metric q v <;> rfl

/-- A scan finds the nearest vectors. -/
theorem nearest_highest (nodes : List (FieldNode ℝ)) (k : ℕ) :
    BestFirst.Nearest k SimilarityResult.distance (scored (exactPlatform layer) metric q nodes)
      (highest (exactPlatform layer) metric q nodes k) := by
  have hlt : Comparable (exactPlatform layer) id metric q nodes :=
    fun r _ r' _ => ordered_reals.lt_iff r.score r'.score
  refine (highest_nearest hlt k).congr ?_
  intro r hr r' hr' hle
  rw [scored_eq] at hr hr'
  obtain ⟨e, -, he⟩ := List.mem_filterMap.mp hr
  obtain ⟨s, hs, rfl⟩ := Option.map_eq_some_iff.mp he
  obtain ⟨e', -, he'⟩ := List.mem_filterMap.mp hr'
  obtain ⟨s', hs', rfl⟩ := Option.map_eq_some_iff.mp he'
  exact distance_le_of_score hs hs' (OrderDual.toDual_le_toDual.mp hle)

/-- In exact arithmetic there is room for any number of results. -/
theorem vectorSearch_exact (layer : NodeId → ℕ) (metric : DistanceMetric) (q : List ℝ)
    (nodes : List (FieldNode ℝ)) (k : ℕ) : vectorSearch (exactPlatform layer) metric q nodes k =
      some (highest (exactPlatform layer) metric q nodes k) := if_pos (Bool.or_true _)

/-! ### The index and the scan -/

variable {dimension : ℕ} {vs : List (NodeId × List ℝ)} {ix : VectorIndex ℝ}

theorem Holds.vectorOf_of_mem {α : Type} {A : Numbers α} {vs : List (NodeId × List α)}
    {ix : VectorIndex α} (h : Holds A dimension vs ix) {e : NodeId × List α} (he : e ∈ vs) :
    ix.vectorOf e.1 = some (VectorIndex.normalize A e.2) := (h.vectors _ _).mpr ⟨e.2, he, rfl⟩

theorem Holds.size {α : Type} {A : Numbers α} {vs : List (NodeId × List α)} {ix : VectorIndex α}
    (h : Holds A dimension vs ix) (hids : (vs.map Prod.fst).Nodup) :
    ix.vectors.size = vs.length := by
  have : Std.LawfulEqCmp (compare : NodeId → NodeId → Ordering) := ⟨compare_eq_iff_eq.mp⟩
  rw [← Std.ExtTreeMap.length_keys, ← List.length_map Prod.fst]
  refine List.Perm.length_eq ((List.perm_ext_iff_of_nodup Std.ExtTreeMap.nodup_keys hids).mpr
    fun id => ?_)
  rw [Std.ExtTreeMap.mem_keys, Std.ExtTreeMap.mem_iff_isSome_getElem?,
    ← Option.isSome_map (f := VectorEntry.vector)]
  change (ix.vectorOf id).isSome ↔ _
  rw [Option.isSome_iff_exists]
  constructor
  · rintro ⟨w, hw⟩
    obtain ⟨v, hv, -⟩ := (h.vectors id w).mp hw
    exact List.mem_map_of_mem hv
  · intro hid
    obtain ⟨e, he, rfl⟩ := List.mem_map.mp hid
    exact ⟨_, h.vectorOf_of_mem he⟩

/-- A search of the index for all there is finds the nearest vectors by their cosine distance. -/
theorem Holds.search (h : Holds reals dimension vs ix) (hids : (vs.map Prod.fst).Nodup)
    (hvs : ∀ e ∈ vs, NonZero e.2) (hreached : ∀ e ∈ vs, ix.Reached e.1) (hq : NonZero q)
    (hdim : q.length = dimension) {k : ℕ} (hk : vs.length ≤ max k 100) :
    ∃ l, ix.search reals q k = some l ∧ (l.map Prod.fst).Nodup ∧
      BestFirst.Nearest k Prod.snd (vs.map fun e => (e.1, cosineDist q e.2)) l := by
  obtain ⟨l, hl, hlength, hnodup, hsorted, hsound, hnearest⟩ :=
    VectorIndex.search_exact ordered_reals ix (hdim.trans h.dimension.symm) k
  have hdistance : ∀ e ∈ vs, ix.distance reals (VectorIndex.normalize reals q)
      (VectorIndex.normalize reals e.2) = cosineDist q e.2 :=
    fun e he => distance_normalize h.metric hq (hvs e he)
  have hfound : ∀ x ∈ l, ∃ e ∈ vs, x = (e.1, cosineDist q e.2) := by
    intro x hx
    obtain ⟨-, w, hw, hd⟩ := hsound x hx
    obtain ⟨v, hv, rfl⟩ := (h.vectors _ _).mp hw
    exact ⟨(x.1, v), hv, Prod.ext rfl (hd.trans (hdistance (x.1, v) hv))⟩
  have hwide := hnearest (by rwa [h.size hids, h.efConstruction])
  refine ⟨l, by rw [VectorIndex.search, hl _ le_rfl]; rfl, hnodup, ?_, hsorted⟩
  refine BestFirst.chosen_of_mem ?_ (List.Nodup.of_map _ hnodup) ?_ hlength ?_
  · refine List.Nodup.of_map Prod.fst ?_
    rwa [List.map_map]
  · intro x hx
    obtain ⟨e, he, rfl⟩ := hfound x hx
    exact List.mem_map_of_mem he
  · intro y hy
    obtain ⟨e, he, rfl⟩ := List.mem_map.mp hy
    obtain ⟨x, hx, hid⟩ | hfar := hwide e.1 _ (hreached e he) (h.vectorOf_of_mem he)
    · obtain ⟨e', he', rfl⟩ := hfound x hx
      obtain rfl : e' = e := List.inj_on_of_nodup_map hids he' he hid
      exact .inl hx
    · rw [hdistance e he] at hfar
      exact .inr hfar

/-- The metric has the distance of the index. -/
def Honoured (layer : NodeId → ℕ) (metric : DistanceMetric) (q v : List ℝ) : Prop :=
  q.length = v.length ∧ metricDistance layer metric q v = metricDistance layer .cosine q v

/-- A similarity search answers like the scan, up to ties: with the same distances in the same
order, each of which is the distance of its node. -/
def SameAnswers (layer : NodeId → ℕ) (vs : List (NodeId × List ℝ)) (nodes : List (FieldNode ℝ))
    (q : List ℝ) (k : ℕ) (metric : DistanceMetric) : Prop :=
  ∃ l, similaritySearch (exactPlatform layer) (embedded (exactPlatform layer) vs) (some nodes) q k
        metric = some l ∧
    (l.map SimilarityResult.nodeId).Nodup ∧
    (∃ l', vectorSearch (exactPlatform layer) metric q nodes k = some l' ∧
      l.map SimilarityResult.distance = l'.map SimilarityResult.distance) ∧
    ∀ r ∈ l, ∃ v, (r.nodeId, v) ∈ vs ∧ metricDistance layer metric q v = some r.distance

/-- An index that is not empty answers a search. -/
theorem similaritySearch_of_ready {α : Type} {P : Platform α} {ix : VectorIndex α}
    (hready : ix.vectors.isEmpty = false) (nodes : Option (List (FieldNode α))) (q : List α) (k : ℕ)
    (metric : DistanceMetric) : similaritySearch P (some ix) nodes q k metric =
      (ix.search P.f32 q k).map fun l => l.map (toResult P metric) := by
  unfold similaritySearch
  rw [Option.filter_some, if_pos (by rw [hready]; rfl)]

theorem Holds.isEmpty {α : Type} {A : Numbers α} {vs : List (NodeId × List α)} {ix : VectorIndex α}
    (h : Holds A dimension vs ix) (hvs : vs ≠ []) : ix.vectors.isEmpty = false := by
  obtain ⟨e, he⟩ := List.exists_mem_of_ne_nil vs hvs
  have hvector := h.vectorOf_of_mem he
  rw [Bool.eq_false_iff]
  intro hempty
  rw [VectorIndex.vectorOf, Std.ExtTreeMap.isEmpty_iff.mp hempty] at hvector
  cases hvector

/-- The distances of the scan under a metric that is honoured. -/
theorem distances_scored {nodes : List (FieldNode ℝ)} (hnodes : (fieldVectors nodes).Perm vs)
    (hvs : ∀ e ∈ vs, NonZero e.2) (hq : NonZero q)
    (hhonoured : ∀ e ∈ vs, Honoured layer metric q e.2) :
    ((scored (exactPlatform layer) metric q nodes).map SimilarityResult.distance).Perm
      (vs.map fun e => cosineDist q e.2) := by
  have hscored : (scored (exactPlatform layer) metric q nodes).map SimilarityResult.distance =
      (fieldVectors nodes).map fun e => cosineDist q e.2 := by
    rw [scored_eq, List.map_filterMap, ← List.filterMap_eq_map]
    refine List.filterMap_congr fun e he => ?_
    obtain ⟨hlength, heq⟩ := hhonoured e (hnodes.mem_iff.mp he)
    have hd := metricDistance_cosine layer hq (hvs e (hnodes.mem_iff.mp he)) hlength
    rw [← heq, metricDistance, Option.map_eq_some_iff] at hd
    obtain ⟨s, hs, hd⟩ := hd
    rw [hs, Function.comp_apply, ← hd]
    rfl
  rw [hscored]
  exact hnodes.map _

section

variable {nodes : List (FieldNode ℝ)} {k : ℕ}

/-- A search under a metric that is honoured answers like the scan. -/
theorem sameAnswers_of_honoured (hids : (vs.map Prod.fst).Nodup)
    (hdim : ∀ e ∈ vs, e.2.length = dimension) (hvs : ∀ e ∈ vs, NonZero e.2)
    (hnodes : (fieldVectors nodes).Perm vs)
    (hreached : ∀ ix, embedded (exactPlatform layer) vs = some ix → ∀ e ∈ vs, ix.Reached e.1)
    (hq : NonZero q) (hk : vs.length ≤ max k 100)
    (hhonoured : ∀ e ∈ vs, Honoured layer metric q e.2) :
    SameAnswers layer vs nodes q k metric := by
  by_cases hnil : vs = []
  · -- there are no vectors, and nothing is found
    subst hnil
    have hempty : fieldVectors nodes = [] := hnodes.eq_nil
    have hscan : vectorSearch (exactPlatform layer) metric q nodes k = some [] := by
      rw [vectorSearch_exact, highest, scored_eq, hempty, List.filterMap_nil, List.foldl_nil,
        List.mergeSort_nil]
    have hdetect : detectDimension nodes = none := by
      unfold detectDimension
      have hvectors : nodes.filterMap Prod.snd = (fieldVectors nodes).map Prod.snd := by
        rw [fieldVectors, List.map_filterMap]
        refine List.filterMap_congr fun node _ => ?_
        cases node.2 <;> rfl
      rw [hvectors, hempty]
      rfl
    refine ⟨[], ?_, List.nodup_nil, ⟨[], hscan, rfl⟩, nofun⟩
    change similaritySearch _ none (some nodes) q k metric = _
    unfold similaritySearch
    dsimp only [Option.filter_none]
    rw [hdetect, hscan]
    split_ifs <;> rfl
  · obtain ⟨ix, hix, hholds⟩ := holds_embedded (exactPlatform layer) hids hdim hnil
    obtain ⟨e₀, he₀⟩ := List.exists_mem_of_ne_nil vs hnil
    have hlength : q.length = dimension := (hhonoured e₀ he₀).1.trans (hdim e₀ he₀)
    obtain ⟨l, hl, hnodup, hnearest⟩ :=
      Holds.search hholds hids hvs (hreached ix hix) hq hlength hk
    have hanswer := similaritySearch_of_ready (P := exactPlatform layer) (hholds.isEmpty hnil)
      (some nodes) q k metric
    have hsearch : ix.search (exactPlatform layer).f32 q k = some l := hl
    rw [hsearch, Option.map_some] at hanswer
    refine ⟨_, by rw [hix]; exact hanswer, ?_, ?_, ?_⟩
    · rw [List.map_map]
      exact hnodup
    · refine ⟨_, vectorSearch_exact layer metric q nodes k, ?_⟩
      rw [List.map_map]
      refine hnearest.keys_eq (nearest_highest nodes k) ?_
      rw [List.map_map]
      exact (distances_scored hnodes hvs hq hhonoured).symm
    · intro r hr
      obtain ⟨x, hx, rfl⟩ := List.mem_map.mp hr
      obtain ⟨⟨-, rest, hperm, -⟩, -⟩ := hnearest
      obtain ⟨e, he, rfl⟩ := List.mem_map.mp (hperm.mem_iff.mp (List.mem_append_left _ hx))
      refine ⟨e.2, he, ?_⟩
      rw [(hhonoured e he).2, metricDistance_cosine layer hq (hvs e he) (hhonoured e he).1]
      rfl

/-- A metric under which a search for all there is answers like the scan is honoured. -/
theorem honoured_of_sameAnswers (hids : (vs.map Prod.fst).Nodup)
    (hdim : ∀ e ∈ vs, e.2.length = dimension) (hvs : ∀ e ∈ vs, NonZero e.2)
    (hreached : ∀ ix, embedded (exactPlatform layer) vs = some ix → ∀ e ∈ vs, ix.Reached e.1)
    (hq : NonZero q) (hk : vs.length ≤ k) (hsame : SameAnswers layer vs nodes q k metric) :
    ∀ e ∈ vs, Honoured layer metric q e.2 := by
  intro e he
  have hnil : vs ≠ [] := List.ne_nil_of_mem he
  obtain ⟨ix, hix, hholds⟩ := holds_embedded (exactPlatform layer) hids hdim hnil
  obtain ⟨answer, hanswer, -, -, hdistances⟩ := hsame
  rw [hix, similaritySearch_of_ready (hholds.isEmpty hnil), Option.map_eq_some_iff] at hanswer
  obtain ⟨l, hl, rfl⟩ := hanswer
  have hlength : q.length = dimension := by
    by_contra hne
    rw [VectorIndex.search, VectorIndex.searchWithin,
      if_neg fun heq => hne (heq.trans hholds.dimension)] at hl
    cases hl
  obtain ⟨l', hl', hnodup, hnearest⟩ :=
    Holds.search hholds hids hvs (hreached ix hix) hq hlength (hk.trans (le_max_left _ _))
  obtain rfl : l' = l := Option.some.inj (hl'.symm.trans hl)
  have hall : (e.1, cosineDist q e.2) ∈ l' := by
    obtain ⟨⟨-, rest, hperm, hfull, -⟩, -⟩ := hnearest
    have hrest : rest = [] := by
      refine hfull.elim id fun hfull => List.eq_nil_of_length_eq_zero ?_
      have hlen := hperm.length_eq
      rw [List.length_append, List.length_map] at hlen
      omega
    rw [hrest, List.append_nil] at hperm
    exact hperm.mem_iff.mpr (List.mem_map_of_mem he)
  obtain ⟨v, hv, hdistance⟩ := hdistances _ (List.mem_map_of_mem hall)
  have hid := List.inj_on_of_nodup_map hids hv he rfl
  obtain rfl : v = e.2 := congrArg Prod.snd hid
  have hsame : q.length = e.2.length := hlength.trans (hdim e he).symm
  refine ⟨hsame, ?_⟩
  rw [hdistance, metricDistance_cosine layer hq (hvs e he) hsame]
  rfl

end

/-- Similarity search honours a metric for all numbers of results, up to ties, if and only if the
metric has the cosine distance for every stored vector; and so for each number of results that takes
in all. -/
theorem similaritySearch_honours_iff (layer : NodeId → ℕ) (vs : List (NodeId × List ℝ))
    (hids : (vs.map Prod.fst).Nodup) (dimension : ℕ) (hdim : ∀ e ∈ vs, e.2.length = dimension)
    (hvs : ∀ e ∈ vs, NonZero e.2) (nodes : List (FieldNode ℝ))
    (hnodes : (fieldVectors nodes).Perm vs)
    (hreached : ∀ ix, embedded (exactPlatform layer) vs = some ix → ∀ e ∈ vs, ix.Reached e.1)
    (q : List ℝ) (hq : NonZero q) (metric : DistanceMetric) :
    ((∀ k, vs.length ≤ max k 100 → SameAnswers layer vs nodes q k metric) ↔
        ∀ e ∈ vs, Honoured layer metric q e.2) ∧
      ∀ k, vs.length ≤ k →
        (SameAnswers layer vs nodes q k metric ↔ ∀ e ∈ vs, Honoured layer metric q e.2) := by
  have henough : ∀ k, vs.length ≤ max k 100 → (∀ e ∈ vs, Honoured layer metric q e.2) →
      SameAnswers layer vs nodes q k metric :=
    fun k hk hhonoured => sameAnswers_of_honoured hids hdim hvs hnodes hreached hq hk hhonoured
  have hneeded : ∀ k, vs.length ≤ k → SameAnswers layer vs nodes q k metric →
      ∀ e ∈ vs, Honoured layer metric q e.2 :=
    fun k hk hsame => honoured_of_sameAnswers hids hdim hvs hreached hq hk hsame
  refine ⟨⟨fun hall => ?_, fun hhonoured k hk => henough k hk hhonoured⟩, fun k hk =>
    ⟨hneeded k hk, ?_⟩⟩
  · exact hneeded vs.length le_rfl (hall _ (le_max_left _ _))
  · exact henough k (hk.trans (le_max_left _ _))

/-- A vector of length two, one component long. -/
def sampleVector : List (NodeId × List ℝ) := [(⟨1⟩, [2])]

theorem ids_sampleVector : (sampleVector.map Prod.fst).Nodup := List.nodup_singleton _

theorem length_sampleVector : ∀ e ∈ sampleVector, e.2.length = 1 := by
  intro e he
  obtain rfl := List.mem_singleton.mp he
  rfl

/-- The first vector of an index is its entry point. -/
theorem reached_sampleVector (layer : NodeId → ℕ) (ix : VectorIndex ℝ)
    (hix : embedded (exactPlatform layer) sampleVector = some ix) :
    ∀ e ∈ sampleVector, ix.Reached e.1 := by
  have hinsert : ∃ ix', (VectorIndex.withParams 1 16 4 .cosine).insert reals layer ⟨1⟩ [2] =
    some ix' ∧ ix'.entryPoint = some ⟨1⟩ := by
    exact ⟨_, (if_pos rfl).trans (if_pos rfl), rfl⟩
  obtain ⟨ix', hinsert, hentry⟩ := hinsert
  obtain ⟨ix₁, hix₁, hholds⟩ := holds_embedded (exactPlatform layer) ids_sampleVector
    length_sampleVector (List.cons_ne_nil _ _)
  obtain rfl := Option.some.inj (hix₁.symm.trans hix)
  have hsame : embedded (exactPlatform layer) sampleVector = some ix' := by
    change some (((VectorIndex.withParams 1 16 4 .cosine).insert reals layer ⟨1⟩ [2]).getD _) = _
    rw [hinsert]
    rfl
  obtain rfl := Option.some.inj (hsame.symm.trans hix)
  intro e he
  obtain rfl := List.mem_singleton.mp he
  exact ⟨Option.isSome_of_eq_some (hholds.vectorOf_of_mem he), ⟨1⟩, hentry, .refl⟩

theorem nonZero_singleton {x : ℝ} (h : x ≠ 0) : NonZero [x] := ⟨x, List.mem_singleton_self x, h⟩

theorem nonZero_sampleVector : ∀ e ∈ sampleVector, NonZero e.2 := by
  intro e he
  obtain rfl := List.mem_singleton.mp he
  exact nonZero_singleton two_ne_zero

/-- The Euclidean distance of two numbers. -/
theorem metricDistance_euclidean_singleton (layer : NodeId → ℕ) (x y : ℝ) :
    metricDistance layer .euclidean [x] [y] = some |x - y| := by
  have hsum : sum64 (exactPlatform layer) [(x - y) * (x - y)] = (x - y) * (x - y) := by
    rw [sum64_exact, List.sum_singleton]
  have hdistance : euclideanDistance (exactPlatform layer) [x] [y] = some |x - y| := by
    refine (if_pos rfl).trans ?_
    change some √(sum64 (exactPlatform layer) [(x - y) * (x - y)]) = _
    rw [hsum, Real.sqrt_mul_self_eq_abs]
  unfold metricDistance computeSimilarity
  dsimp only
  rw [hdistance]
  rfl

/-- Two vectors of opposite directions. -/
def oppositeVectors : List (NodeId × List ℝ) := [(⟨1⟩, [1]), (⟨2⟩, [-1])]

theorem ids_oppositeVectors : (oppositeVectors.map Prod.fst).Nodup := by
  simp [oppositeVectors]

theorem length_oppositeVectors : ∀ e ∈ oppositeVectors, e.2.length = 1 := by
  simp [oppositeVectors]

theorem nonZero_oppositeVectors : ∀ e ∈ oppositeVectors, NonZero e.2 := by
  intro e he
  rcases List.mem_pair.mp he with rfl | rfl
  · exact nonZero_singleton one_ne_zero
  · exact nonZero_singleton (neg_ne_zero.mpr one_ne_zero)

/-- A search that starts where nothing leads on ends there. -/
theorem searchLayer_alone {α : Type} (A : Numbers α) (ix : VectorIndex α) (query : List α) {ef : ℕ}
    (hef : 1 < ef) {ep : NodeId} {v : List α} (hep : ix.vectors[ep]? = some ⟨v, [[]]⟩) (fuel : ℕ) :
    ∃ d, ix.searchLayer A query ef (fuel + 2) ep = some [(ep, d)] := by
  have hfew : decide (ef ≤ [(⟨ep, A.neg (ix.distance A query v)⟩ : Neighbor α)].length) = false :=
    decide_eq_false (by simpa using hef)
  have hpop : popNeighbor A [⟨ep, ix.distance A query v⟩] =
      some (⟨ep, ix.distance A query v⟩, []) := rfl
  refine ⟨A.neg (A.neg (ix.distance A query v)), ?_⟩
  unfold VectorIndex.searchLayer VectorIndex.start
  rw [hep]
  dsimp only
  rw [VectorIndex.loop, hpop]
  dsimp only
  rw [hfew, Bool.and_false, if_neg Bool.false_ne_true, hep]
  rfl

/-- The index of the first of the two vectors. -/
def firstIndex : VectorIndex ℝ where
  vectors := (∅ : OrdMap NodeId (VectorEntry ℝ)).insert ⟨1⟩
    ⟨VectorIndex.normalize reals [1], [[]]⟩
  dimension := 1
  maxConnections := 16
  maxLayers := 4
  entryPoint := some ⟨1⟩
  metric := .cosine
  efConstruction := 100

/-- The second vector is linked with the first. -/
theorem insert_firstIndex : ∃ ix, firstIndex.insert reals (fun _ => 0) ⟨2⟩ [-1] = some ix ∧
    ix.entryPoint = some ⟨1⟩ ∧ ∃ v, ix.vectors[(⟨1⟩ : NodeId)]? = some ⟨v, [[⟨2⟩]]⟩ := by
  have hfirst : firstIndex.vectors[(⟨1⟩ : NodeId)]? =
      some ⟨VectorIndex.normalize reals [1], [[]]⟩ := OrdMap.get_insert_self _ _ _
  have hempty : ¬ firstIndex.vectors.isEmpty = true := by
    intro h
    rw [Std.ExtTreeMap.isEmpty_iff.mp h, OrdMap.get_empty] at hfirst
    cases hfirst
  have hrounds : firstIndex.rounds = 0 + 2 := rfl
  obtain ⟨d, hd⟩ := searchLayer_alone reals firstIndex (VectorIndex.normalize reals [-1])
    (show 1 < firstIndex.efConstruction by decide) hfirst 0
  unfold VectorIndex.insert
  rw [if_pos (show [(-1 : ℝ)].length = firstIndex.dimension from rfl), if_neg hempty]
  change ∃ ix, some _ = some ix ∧ _
  rw [hrounds, hd]
  refine ⟨_, rfl, rfl, VectorIndex.normalize reals [1], ?_⟩
  dsimp only
  rw [OrdMap.get_insert_of_ne _ _ (by decide)]
  change (linkBack 16 ⟨2⟩ firstIndex.vectors ⟨1⟩)[(⟨1⟩ : NodeId)]? = _
  rw [linkBack, hfirst]
  exact OrdMap.get_insert_self _ _ _

/-- The first vector leads to the second. -/
theorem reached_oppositeVectors (ix : VectorIndex ℝ)
    (hix : embedded (exactPlatform fun _ => 0) oppositeVectors = some ix) :
    ∀ e ∈ oppositeVectors, ix.Reached e.1 := by
  obtain ⟨ix₁, hix₁, hholds⟩ := holds_embedded (exactPlatform fun _ => 0) ids_oppositeVectors
    length_oppositeVectors (List.cons_ne_nil _ _)
  obtain rfl := Option.some.inj (hix₁.symm.trans hix)
  have hthere : ∀ e ∈ oppositeVectors, (ix₁.vectorOf e.1).isSome :=
    fun e he => Option.isSome_of_eq_some (hholds.vectorOf_of_mem he)
  have hlink : ix₁.entryPoint = some ⟨1⟩ ∧
      ∃ v, ix₁.vectors[(⟨1⟩ : NodeId)]? = some ⟨v, [[⟨2⟩]]⟩ := by
    obtain ⟨ix', hinsert, hentry, hlink⟩ := insert_firstIndex
    have hfirst : (VectorIndex.withParams 1 16 4 .cosine).insert reals (fun _ => 0) ⟨1⟩ [1] =
        some firstIndex := (if_pos rfl).trans (if_pos rfl)
    have hsame : embedded (exactPlatform fun _ => 0) oppositeVectors = some ix' := by
      change some ((VectorIndex.insert reals (((VectorIndex.withParams 1 16 4 .cosine).insert reals
        (fun _ => 0) ⟨1⟩ [1]).getD _) (fun _ => 0) ⟨2⟩ [-1]).getD _) = _
      rw [hfirst, Option.getD_some, hinsert]
      rfl
    obtain rfl := Option.some.inj (hsame.symm.trans hix)
    exact ⟨hentry, hlink⟩
  obtain ⟨hentry, v, hv⟩ := hlink
  intro e he
  refine ⟨hthere e he, ⟨1⟩, hentry, ?_⟩
  rcases List.mem_pair.mp he with rfl | rfl
  · exact .refl
  · exact .single ⟨_, hv, List.mem_singleton_self _, hthere _ he⟩

/-- The Euclidean metric is honoured where its distances are the cosine distances, here zero and
two. -/
theorem similaritySearch_honours_sample :
    SameAnswers (fun _ => 0) oppositeVectors [(⟨1⟩, some [1]), (⟨2⟩, some [-1])] [1] 2
      .euclidean := by
  have h := similaritySearch_honours_iff (fun _ => 0) oppositeVectors ids_oppositeVectors 1
    length_oppositeVectors nonZero_oppositeVectors [(⟨1⟩, some [1]), (⟨2⟩, some [-1])] (.refl _)
    reached_oppositeVectors [1] (nonZero_singleton one_ne_zero) .euclidean
  refine h.1.mpr (fun e he => ?_) 2 (by decide)
  have hsame : ∀ x : ℝ, x ≠ 0 → |1 - x| = cosineDist [1] [x] →
      Honoured (fun _ => 0) .euclidean [1] [x] := by
    intro x hx heq
    refine ⟨rfl, ?_⟩
    rw [metricDistance_euclidean_singleton,
      metricDistance_cosine _ (nonZero_singleton one_ne_zero) (nonZero_singleton hx) rfl, heq]
  rcases List.mem_pair.mp he with rfl | rfl
  · refine hsame 1 one_ne_zero ?_
    simp [cosineDist, normSq]
  · refine hsame (-1) (neg_ne_zero.mpr one_ne_zero) ?_
    norm_num [cosineDist, normSq]

/-- Under the Euclidean metric the distance of two vectors of one direction is reported as zero. -/
theorem euclidean_not_honoured :
    (∀ ix, embedded (exactPlatform fun _ => 0) sampleVector = some ix →
        ∀ e ∈ sampleVector, ix.Reached e.1) ∧
      ¬ SameAnswers (fun _ => 0) sampleVector [(⟨1⟩, some [2])] [1] 1 .euclidean := by
  refine ⟨reached_sampleVector _, fun hsame => ?_⟩
  obtain ⟨-, heq⟩ := honoured_of_sameAnswers ids_sampleVector length_sampleVector
    nonZero_sampleVector (reached_sampleVector _) (nonZero_singleton one_ne_zero) le_rfl hsame _
    List.mem_cons_self
  have hcosine := metricDistance_cosine (fun _ => 0) (nonZero_singleton one_ne_zero)
    (nonZero_singleton (two_ne_zero : (2 : ℝ) ≠ 0)) rfl
  rw [metricDistance_euclidean_singleton, hcosine, Option.some.injEq] at heq
  have hroot : √(normSq [1] * normSq [2]) = 2 := by
    have hsq : normSq [1] * normSq [2] = 2 * 2 := by simp [normSq]
    rw [hsq]
    exact Real.sqrt_mul_self zero_le_two
  rw [cosineDist, hroot] at heq
  norm_num at heq

end

end

end AresaDb.Vectors.Generic
