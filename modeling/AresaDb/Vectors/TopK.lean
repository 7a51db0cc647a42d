import AresaDb.Vectors.Scan
import AresaDb.Lib.StableSort

/-! # The highest scores of a scan

The scan keeps a heap with the lowest score on top, and lets go of that whenever the heap has more
than `k` results.  When the scores are compared by a linear order, what is left are the `k` highest
ones (`highest_best`); on a machine they are when none of them is a NaN (`highest_best_machine`).
The heap is made with room for `k + 1` results, whatever the number of nodes is, so that a search
for very many panics; otherwise it finds them (`vectorSearch_best_iff`). -/

namespace AresaDb.Vectors.Generic

open AresaDb.Store

section

variable {α δ : Type} [LinearOrder δ] (P : Platform α) (key : α → δ) (metric : DistanceMetric)
  (query : List α) (nodes : List (FieldNode α)) (k : ℕ)

/-- The score and the distance of a node, if it has a vector that can be compared with the query. -/
def similarityOf (node : FieldNode α) : Option (α × α) :=
  node.2.bind (computeSimilarity P metric query)

/-- The `k` highest scores, or all of them if there are fewer, the highest first, each with the node
that it is the score of. -/
structure Best (results : List (SimilarityResult α)) : Prop where
  length : results.length =
    min k (nodes.countP fun node => (similarityOf P metric query node).isSome)
  ids : (results.map SimilarityResult.nodeId).Nodup
  sorted : results.Pairwise fun a b => key b.score ≤ key a.score
  own : ∀ r ∈ results, ∃ node ∈ nodes, node.1 = r.nodeId ∧
    similarityOf P metric query node = some (r.score, r.distance)
  rest : ∀ node ∈ nodes, ∀ score distance,
    similarityOf P metric query node = some (score, distance) →
      node.1 ∉ results.map SimilarityResult.nodeId → ∀ r ∈ results, key score ≤ key r.score

/-- The comparison of any two scores of the scan is that of their keys. -/
def Comparable : Prop :=
  ∀ r ∈ scored P metric query nodes, ∀ r' ∈ scored P metric query nodes,
    P.f64.lt r.score r'.score = true ↔ key r.score < key r'.score

variable {P key metric query nodes k}

theorem scored_eq_filterMap : scored P metric query nodes = nodes.filterMap fun node =>
    (similarityOf P metric query node).map fun s => ⟨node.1, s.1, s.2⟩ := by
  refine List.filterMap_congr fun node _ => ?_
  obtain ⟨id, v⟩ := node
  cases v with
  | none => rfl
  | some v =>
      simp only [similarityOf, Option.bind_eq_bind, Option.bind_some]
      cases computeSimilarity P metric query v <;> rfl

theorem mem_scored {r : SimilarityResult α} : r ∈ scored P metric query nodes ↔
    ∃ node ∈ nodes, node.1 = r.nodeId ∧
      similarityOf P metric query node = some (r.score, r.distance) := by
  rw [scored_eq_filterMap, List.mem_filterMap]
  refine exists_congr fun node => and_congr_right fun _ => ?_
  rw [Option.map_eq_some_iff]
  constructor
  · rintro ⟨s, hs, rfl⟩
    exact ⟨rfl, hs⟩
  · rintro ⟨hid, hs⟩
    refine ⟨_, hs, ?_⟩
    rw [hid]

theorem length_scored : (scored P metric query nodes).length =
    nodes.countP fun node => (similarityOf P metric query node).isSome := by
  rw [scored_eq_filterMap, List.length_filterMap_eq_countP]
  refine List.countP_congr fun node _ => ?_
  rw [Option.isSome_map]

/-- The ids of the scored nodes are some of those of the nodes, in their order. -/
theorem ids_scored : ((scored P metric query nodes).map SimilarityResult.nodeId).Sublist
    (nodes.map Prod.fst) := by
  rw [scored_eq_filterMap]
  induction nodes with
  | nil => exact .slnil
  | cons node nodes ih =>
      rw [List.filterMap_cons]
      cases similarityOf P metric query node with
      | none => exact ih.cons _
      | some s => exact ih.cons_cons _

/-- A scan finds the results with the highest scores. -/
theorem highest_nearest (hlt : Comparable P key metric query nodes) (k : ℕ) :
    BestFirst.Nearest k (fun r => OrderDual.toDual (key r.score)) (scored P metric query nodes)
      (highest P metric query nodes k) := by
  have hchosen : BestFirst.Chosen k (fun r => OrderDual.toDual (key r.score))
      (scored P metric query nodes) ((scored P metric query nodes).foldl (keepBest P k) []) :=
    BestFirst.chosen_keeps k _ hlt
  refine ⟨hchosen.perm (List.mergeSort_perm _ _), ?_⟩
  obtain ⟨-, rest, hperm, -⟩ := hchosen
  have hsub : ∀ r ∈ (scored P metric query nodes).foldl (keepBest P k) [],
      r ∈ scored P metric query nodes :=
    fun r hr => hperm.subset (List.mem_append_left rest hr)
  refine StableSort.mergeSort_sorted fun a ha b hb => ?_
  rw [Bool.not_eq_true', ← Bool.not_eq_true, hlt a (hsub a ha) b (hsub b hb), not_lt]
  exact Iff.rfl

/-- The `k` highest scores are those of the nodes that are most like the query. -/
theorem highest_best (P : Platform α) (key : α → δ) (metric : DistanceMetric) (query : List α)
    (nodes : List (FieldNode α)) (k : ℕ) (hids : (nodes.map Prod.fst).Nodup)
    (hlt : Comparable P key metric query nodes) :
    Best P key metric query nodes k (highest P metric query nodes k) := by
  obtain ⟨⟨hlength, rest, hperm, hfull, hle⟩, hsorted⟩ := highest_nearest hlt k
  have hnodup : ((highest P metric query nodes k ++ rest).map SimilarityResult.nodeId).Nodup :=
    ((hperm.map SimilarityResult.nodeId).nodup_iff).mpr (hids.sublist ids_scored)
  rw [List.map_append, List.nodup_append'] at hnodup
  refine ⟨?_, hnodup.1, hsorted, ?_, ?_⟩
  · have hall := hperm.length_eq
    rw [List.length_append, length_scored] at hall
    obtain rfl | hfull := hfull
    · rw [List.length_nil] at hall
      omega
    · omega
  · exact fun r hr => mem_scored.mp (hperm.subset (List.mem_append_left rest hr))
  · intro node hnode score distance hscore hout r hr
    have hmem : (⟨node.1, score, distance⟩ : SimilarityResult α) ∈
        highest P metric query nodes k ++ rest :=
      hperm.mem_iff.mpr (mem_scored.mpr ⟨node, hnode, rfl, hscore⟩)
    obtain hin | hrest := List.mem_append.mp hmem
    · exact absurd (List.mem_map_of_mem hin) hout
    · exact hle r hr _ hrest

end

/-- The search finds the `k` nodes that are most like the query if and only if there is room for its
heap. -/
theorem vectorSearch_best_iff {α δ : Type} [LinearOrder δ] (P : Platform α) (key : α → δ)
    (metric : DistanceMetric) (query : List α) (nodes : List (FieldNode α)) (k : ℕ)
    (hids : (nodes.map Prod.fst).Nodup) (hlt : Comparable P key metric query nodes) :
    (∃ results, vectorSearch P metric query nodes k = some results ∧
        Best P key metric query nodes k results) ↔
      canReserve P.allocates k = true := by
  unfold vectorSearch
  constructor
  · rintro ⟨results, h, -⟩
    by_contra hroom
    rw [if_neg hroom] at h
    cases h
  · intro hroom
    exact ⟨_, if_pos hroom, highest_best P key metric query nodes k hids hlt⟩

/-- Whole numbers for all there is, and all the bytes up to `isize::MAX`. -/
def integerPlatform : Platform ℤ :=
  ⟨integers, integers, fun _ => 0, fun bytes => decide (bytes < 2 ^ 63)⟩

/-- Three nodes, one of them without a vector. -/
def sampleNodes : List (FieldNode ℤ) := [(⟨1⟩, some [1, 2]), (⟨2⟩, none), (⟨3⟩, some [3, 0])]

theorem comparable_sample : Comparable integerPlatform id .dotProduct [1, 1] sampleNodes :=
  fun _ _ _ _ => decide_eq_true_iff

theorem vectorSearch_best_iff_sample :
    (∃ results, vectorSearch integerPlatform .dotProduct [1, 1] sampleNodes 1 = some results ∧
        Best integerPlatform id .dotProduct [1, 1] sampleNodes 1 results) ∧
      ((∃ results, vectorSearch integerPlatform .dotProduct [1, 1] sampleNodes (2 ^ 62) =
            some results ∧
          Best integerPlatform id .dotProduct [1, 1] sampleNodes (2 ^ 62) results) → False) := by
  refine ⟨(vectorSearch_best_iff integerPlatform id .dotProduct [1, 1] sampleNodes 1 (by decide)
    comparable_sample).mpr (by decide), fun h => ?_⟩
  have hroom := (vectorSearch_best_iff integerPlatform id .dotProduct [1, 1] sampleNodes (2 ^ 62)
    (by decide) comparable_sample).mp h
  exact absurd hroom (by decide)

/-- A search for `2 ^ 62` of three nodes. -/
theorem vectorSearch_panics :
    (sampleNodes.map Prod.fst).Nodup ∧
      Comparable integerPlatform id .dotProduct [1, 1] sampleNodes ∧
      vectorSearch integerPlatform .dotProduct [1, 1] sampleNodes 4611686018427387904 = none :=
  ⟨by decide, comparable_sample, by decide⟩

/-! ### On a machine -/

/-- The scores are numbers. -/
theorem highest_best_machine (P : Vectors.Platform) (metric : DistanceMetric)
    (query : List Binary64) (nodes : List Node) (field : String) (k : ℕ)
    (hids : (nodes.map Node.id).Nodup)
    (hnan : ∀ r ∈ scored (ofPlatform P) metric query (nodes.map (ofNode field)),
      r.score.isNaN = false) :
    Best (ofPlatform P) Binary64.rank metric query (nodes.map (ofNode field)) k
      ((Vectors.highest P metric query nodes field k).map ofResult) := by
  rw [ofResult_highest]
  refine highest_best _ _ _ _ _ _ ?_ fun r hr r' hr' => ?_
  · rw [List.map_map]
    exact hids
  · change r.score.lt r'.score = true ↔ _
    rw [Binary64.lt, hnan r hr, hnan r' hr', Bool.not_false, Bool.true_and, Bool.true_and,
      decide_eq_true_iff]

end AresaDb.Vectors.Generic
