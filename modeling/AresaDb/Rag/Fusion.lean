import AresaDb.Vectors.Scan
import AresaDb.Lib.StableSort

/-! # Reciprocal rank fusion

The results of a keyword search and of a vector search, fused by their ranks (`rag/hybrid.rs`), with
exact rational numbers for the `f64`s.  The scores are put together in a hash map, in one pass over
each list; the order in which it gives its entries out is a parameter.

After both passes an id has the weighted sum of the reciprocals of its ranks (`get_rankScores`). -/

namespace AresaDb.Rag

open AresaDb.Store

/-- A result of a vector search. -/
abbrev SimilarityResult := Vectors.Generic.SimilarityResult ℚ

/-- The weights of the two lists and the constant that is added to ranks. -/
structure HybridSearchConfig where
  keywordWeight : ℚ
  vectorWeight : ℚ
  rrfK : ℚ

structure RankScores where
  score : ℚ
  keywordRank : Option ℕ
  vectorRank : Option ℕ
  vectorScore : Option ℚ
deriving DecidableEq

structure RankedResult extends RankScores where
  nodeId : NodeId
deriving DecidableEq

/-- The order in which a hash map gives its entries out. -/
structure EntryOrder where
  order : List (NodeId × RankScores) → List (NodeId × RankScores)
  perm : ∀ l, (order l).Perm l

section

variable (config : HybridSearchConfig)

/-- A keyword result, with its place in the list, from zero. -/
def addKeyword (scores : OrdMap NodeId RankScores) (e : (NodeId × ℚ) × ℕ) :
    OrdMap NodeId RankScores :=
  let rrfScore := config.keywordWeight * (1 / (config.rrfK + e.2 + 1))
  scores.insert e.1.1 ⟨rrfScore, some (e.2 + 1), none, none⟩

/-- A vector result, with its place in the list, from zero. -/
def addVector (scores : OrdMap NodeId RankScores) (e : SimilarityResult × ℕ) :
    OrdMap NodeId RankScores :=
  let rrfScore := config.vectorWeight * (1 / (config.rrfK + e.2 + 1))
  match scores[e.1.nodeId]? with
  | some entry =>
      scores.insert e.1.nodeId
        { entry with
          score := entry.score + rrfScore
          vectorRank := some (e.2 + 1)
          vectorScore := some e.1.score }
  | none => scores.insert e.1.nodeId ⟨rrfScore, none, some (e.2 + 1), some e.1.score⟩

variable (keywordResults : List (NodeId × ℚ)) (vectorResults : List SimilarityResult)

/-- The hash map after both passes. -/
def rankScores : OrdMap NodeId RankScores :=
  vectorResults.zipIdx.foldl (addVector config) (keywordResults.zipIdx.foldl (addKeyword config) ∅)

def reciprocalRankFusion (h : EntryOrder) : List RankedResult :=
  ((h.order (rankScores config keywordResults vectorResults).toList).map
    fun e => (⟨e.2, e.1⟩ : RankedResult)).mergeSort fun a b => decide (b.score ≤ a.score)

/-! ### The sum of the reciprocals -/

/-- The place of an id in a list, from one. -/
def position (ids : List NodeId) (id : NodeId) : Option ℕ :=
  if id ∈ ids then some (ids.idxOf id + 1) else none

/-- What a list adds to the score of an id that it has at a rank. -/
def share (weight : ℚ) : Option ℕ → ℚ
  | some rank => weight * (1 / (config.rrfK + rank))
  | none => 0

/-- The ranks of an id and the weighted sum of their reciprocals. -/
def fused (id : NodeId) : RankScores where
  score :=
    share config config.keywordWeight (position (keywordResults.map Prod.fst) id) +
      share config config.vectorWeight
        (position (vectorResults.map Vectors.Generic.SimilarityResult.nodeId) id)
  keywordRank := position (keywordResults.map Prod.fst) id
  vectorRank := position (vectorResults.map Vectors.Generic.SimilarityResult.nodeId) id
  vectorScore := (vectorResults.find? fun r => r.nodeId = id).map
    Vectors.Generic.SimilarityResult.score

end

theorem position_of_notMem {ids : List NodeId} {id : NodeId} (h : id ∉ ids) :
    position ids id = none := if_neg h

@[simp] theorem position_nil (id : NodeId) : position [] id = none := rfl

theorem mem_append_of_ne {ids : List NodeId} {id last : NodeId} (h : id ≠ last) :
    id ∈ ids ++ [last] ↔ id ∈ ids := by
  rw [List.mem_append, List.mem_singleton, or_iff_left h]

theorem position_append {ids : List NodeId} {last : NodeId} (h : last ∉ ids) (id : NodeId) :
    position (ids ++ [last]) id = if id = last then some (ids.length + 1) else position ids id := by
  unfold position
  by_cases hid : id = last
  · subst hid
    rw [if_pos rfl, if_pos (by simp), List.idxOf_append_of_notMem h]
    simp
  · rw [if_neg hid]
    by_cases hin : id ∈ ids
    · rw [if_pos hin, if_pos (by simp [hin]), List.idxOf_append_of_mem hin]
    · rw [if_neg hin, if_neg (by simp [hin, hid])]

variable {config : HybridSearchConfig}

/-- The map after the keyword results. -/
theorem get_keywords {keywordResults : List (NodeId × ℚ)}
    (h : (keywordResults.map Prod.fst).Nodup) (id : NodeId) :
    (keywordResults.zipIdx.foldl (addKeyword config) ∅)[id]? =
      if id ∈ keywordResults.map Prod.fst then some (fused config keywordResults [] id) else
          none := by
  induction keywordResults using List.reverseRecOn with
  | nil => simp
  | append_singleton l e ih =>
      rw [List.map_append, List.map_singleton, List.nodup_append'] at h
      obtain ⟨hnodup, -, hdisjoint⟩ := h
      have hnotin := fun hin => hdisjoint hin (List.mem_singleton_self e.1)
      rw [List.zipIdx_append, List.foldl_append, List.zipIdx_singleton, List.foldl_cons,
        List.foldl_nil, addKeyword, OrdMap.get_insert, ih hnodup]
      unfold fused
      rw [List.map_append, List.map_singleton, position_append hnotin]
      by_cases hid : id = e.1
      · subst hid
        simp [share, add_assoc]
      · rw [if_neg (Ne.symm hid), if_neg hid]
        simp only [mem_append_of_ne hid]

/-- The map after both passes. -/
theorem get_rankScores {keywordResults : List (NodeId × ℚ)} {vectorResults : List SimilarityResult}
    (hkeyword : (keywordResults.map Prod.fst).Nodup)
    (hvector : (vectorResults.map Vectors.Generic.SimilarityResult.nodeId).Nodup) (id : NodeId) :
    (rankScores config keywordResults vectorResults)[id]? =
      if id ∈ keywordResults.map Prod.fst ∨
          id ∈ vectorResults.map Vectors.Generic.SimilarityResult.nodeId then
        some (fused config keywordResults vectorResults id)
      else none := by
  induction vectorResults using List.reverseRecOn generalizing id with
  | nil =>
      rw [List.map_nil]
      simp only [List.not_mem_nil, or_false]
      exact get_keywords hkeyword id
  | append_singleton l r ih =>
      rw [List.map_append, List.map_singleton, List.nodup_append'] at hvector
      obtain ⟨hnodup, -, hdisjoint⟩ := hvector
      have hnotin := fun hin => hdisjoint hin (List.mem_singleton_self r.nodeId)
      have hscore : (l.find? fun r' => r'.nodeId = r.nodeId) = none := by
        rw [List.find?_eq_none]
        exact fun r' hr' hid => hnotin (of_decide_eq_true hid ▸ List.mem_map_of_mem hr')
      have hstep : rankScores config keywordResults (l ++ [r]) =
          addVector config (rankScores config keywordResults l) (r, l.length) := by
        unfold rankScores
        rw [List.zipIdx_append, List.foldl_append, List.zipIdx_singleton, Nat.zero_add]
        rfl
      rw [hstep, addVector, ih hnodup r.nodeId]
      dsimp only
      by_cases hid : id = r.nodeId
      · subst hid
        by_cases hin : r.nodeId ∈ keywordResults.map Prod.fst
        · -- the id has an entry from the keyword results
          rw [if_pos (.inl hin), if_pos (.inl hin)]
          simp [fused, position_append hnotin, position_of_notMem hnotin, share, hscore, add_assoc]
        · rw [if_neg (not_or.mpr ⟨hin, hnotin⟩), if_pos (by simp)]
          simp [fused, position_append hnotin, position_of_notMem hin, share, hscore, add_assoc]
      · have hother : ∀ s : RankScores,
            ((rankScores config keywordResults l).insert r.nodeId s)[id]? =
              (rankScores config keywordResults l)[id]? :=
          fun s => OrdMap.get_insert_of_ne _ s (Ne.symm hid)
        have hfused : fused config keywordResults (l ++ [r]) id =
            fused config keywordResults l id := by
          simp [fused, position_append hnotin, hid, Ne.symm hid]
        rw [hfused, List.map_append, List.map_singleton]
        simp only [mem_append_of_ne hid]
        split <;> rw [hother, ih hnodup id]

/-! ### The fused list -/

section

variable (config : HybridSearchConfig) (keywordResults : List (NodeId × ℚ))
  (vectorResults : List SimilarityResult)

/-- Every id of either list once, with its ranks and the weighted sum of their reciprocals, in
descending order of these. -/
structure Fused (results : List RankedResult) : Prop where
  ids : (results.map RankedResult.nodeId).Nodup
  mem : ∀ id, id ∈ results.map RankedResult.nodeId ↔
    id ∈ keywordResults.map Prod.fst ∨
      id ∈ vectorResults.map Vectors.Generic.SimilarityResult.nodeId
  ranks : ∀ r ∈ results, r.toRankScores = fused config keywordResults vectorResults r.nodeId
  sorted : results.Pairwise fun a b => b.score ≤ a.score

variable {config keywordResults vectorResults}

theorem reciprocalRankFusion_fused (h : EntryOrder)
    (hkeyword : (keywordResults.map Prod.fst).Nodup)
    (hvector : (vectorResults.map Vectors.Generic.SimilarityResult.nodeId).Nodup) :
    Fused config keywordResults vectorResults
      (reciprocalRankFusion config keywordResults vectorResults h) := by
  have hentries := h.perm (rankScores config keywordResults vectorResults).toList
  have hperm : (reciprocalRankFusion config keywordResults vectorResults h).Perm
      ((rankScores config keywordResults vectorResults).toList.map
        fun e => (⟨e.2, e.1⟩ : RankedResult)) :=
    (List.mergeSort_perm _ _).trans (hentries.map _)
  have hids : ((rankScores config keywordResults vectorResults).toList.map
      fun e => (⟨e.2, e.1⟩ : RankedResult)).map RankedResult.nodeId =
        (rankScores config keywordResults vectorResults).toList.map Prod.fst := List.map_map
  refine ⟨?_, fun id => ?_, fun r hr => ?_, ?_⟩
  · rw [(hperm.map _).nodup_iff, hids]
    exact (List.pairwise_map.mpr (OrdMap.toList_sorted _)).imp fun hlt => ne_of_lt hlt
  · rw [(hperm.map _).mem_iff, hids]
    have hget : (rankScores config keywordResults vectorResults)[id]? = _ :=
      get_rankScores hkeyword hvector id
    constructor
    · intro hid
      obtain ⟨⟨id, s⟩, he, rfl⟩ := List.mem_map.mp hid
      rw [OrdMap.mem_toList, hget] at he
      by_contra hnot
      rw [if_neg hnot] at he
      cases he
    · intro hid
      rw [if_pos hid] at hget
      exact List.mem_map_of_mem ((OrdMap.mem_toList _ _ _).mpr hget)
  · obtain ⟨⟨id, s⟩, he, rfl⟩ := List.mem_map.mp (hperm.mem_iff.mp hr)
    rw [OrdMap.mem_toList, get_rankScores hkeyword hvector] at he
    split_ifs at he
    exact (Option.some.inj he).symm
  · exact StableSort.mergeSort_sorted (f := fun r : RankedResult => OrderDual.toDual r.score)
      fun _ _ _ _ => decide_eq_true_iff

end

/-- The second list has an id no later than the first one, and the others in the same order. -/
def Improved (id : NodeId) (ids ids' : List NodeId) : Prop :=
  id ∈ ids ∧ id ∈ ids' ∧ ids'.erase id = ids.erase id ∧ ids'.idxOf id ≤ ids.idxOf id

/-- No weight is negative, and neither is the constant. -/
structure HybridSearchConfig.NonNeg (config : HybridSearchConfig) : Prop where
  keywordWeight : 0 ≤ config.keywordWeight
  vectorWeight : 0 ≤ config.vectorWeight
  rrfK : 0 ≤ config.rrfK

theorem share_improved (hk : 0 ≤ config.rrfK) {weight : ℚ} (hweight : 0 ≤ weight) {id : NodeId}
    {ids ids' : List NodeId} (h : Improved id ids ids') :
    share config weight (position ids id) ≤ share config weight (position ids' id) := by
  obtain ⟨hin, hin', -, hle⟩ := h
  rw [position, position, if_pos hin, if_pos hin', share, share]
  have hcast : ((ids'.idxOf id + 1 : ℕ) : ℚ) ≤ ((ids.idxOf id + 1 : ℕ) : ℚ) :=
    Nat.cast_le.mpr (by omega)
  have hpos : 0 < config.rrfK + ((ids'.idxOf id + 1 : ℕ) : ℚ) := by positivity
  gcongr

/-- Fusion is exact, and an id that moves up in one of the lists does not lose. -/
theorem reciprocalRankFusion_exact (config : HybridSearchConfig) (hconfig : config.NonNeg)
    (keywordResults : List (NodeId × ℚ)) (hkeyword : (keywordResults.map Prod.fst).Nodup)
    (vectorResults : List SimilarityResult)
    (hvector : (vectorResults.map Vectors.Generic.SimilarityResult.nodeId).Nodup) (h : EntryOrder) :
    Fused config keywordResults vectorResults
        (reciprocalRankFusion config keywordResults vectorResults h) ∧
      ∀ (keywordResults' : List (NodeId × ℚ)) (vectorResults' : List SimilarityResult)
        (h' : EntryOrder) (id : NodeId), (keywordResults'.map Prod.fst).Nodup →
        (vectorResults'.map Vectors.Generic.SimilarityResult.nodeId).Nodup →
        Improved id (keywordResults.map Prod.fst) (keywordResults'.map Prod.fst) ∧
              vectorResults' = vectorResults ∨
            keywordResults' = keywordResults ∧
              Improved id (vectorResults.map Vectors.Generic.SimilarityResult.nodeId)
                (vectorResults'.map Vectors.Generic.SimilarityResult.nodeId) →
          ∀ r ∈ reciprocalRankFusion config keywordResults vectorResults h,
            ∀ r' ∈ reciprocalRankFusion config keywordResults' vectorResults' h',
              r.nodeId = id → r'.nodeId = id → r.score ≤ r'.score := by
  have hfused : Fused config keywordResults vectorResults _ :=
    reciprocalRankFusion_fused h hkeyword hvector
  refine ⟨hfused, fun keywordResults' vectorResults' h' id hkeyword' hvector' himproved r hr r' hr'
    hid hid' => ?_⟩
  have hfused' : Fused config keywordResults' vectorResults' _ :=
    reciprocalRankFusion_fused h' hkeyword' hvector'
  rw [hfused.ranks r hr, hfused'.ranks r' hr', hid, hid']
  obtain ⟨himproved, rfl⟩ | ⟨rfl, himproved⟩ := himproved
  · exact add_le_add_left (share_improved hconfig.rrfK hconfig.keywordWeight himproved) _
  · exact add_le_add_right (share_improved hconfig.rrfK hconfig.vectorWeight himproved) _

/-- The weights and the constant that a search has by default. -/
def HybridSearchConfig.default : HybridSearchConfig := ⟨1 / 2, 1 / 2, 60⟩

def sampleKeywords : List (NodeId × ℚ) := [(⟨1⟩, 3), (⟨2⟩, 1)]

def sampleVectors : List SimilarityResult := [⟨⟨2⟩, 1, 0⟩, ⟨⟨3⟩, 1 / 2, 1 / 2⟩]

/-- The id that only the vector results have moves up in them. -/
theorem reciprocalRankFusion_sample :
    Fused .default sampleKeywords sampleVectors
        (reciprocalRankFusion .default sampleKeywords sampleVectors ⟨id, .refl⟩) ∧
      ∀ r ∈ reciprocalRankFusion .default sampleKeywords sampleVectors ⟨id, .refl⟩,
        ∀ r' ∈ reciprocalRankFusion .default sampleKeywords sampleVectors.reverse ⟨id, .refl⟩,
          r.nodeId = ⟨3⟩ → r'.nodeId = ⟨3⟩ → r.score ≤ r'.score := by
  have hconfig : HybridSearchConfig.default.NonNeg :=
    ⟨by norm_num [HybridSearchConfig.default], by norm_num [HybridSearchConfig.default],
      by norm_num [HybridSearchConfig.default]⟩
  have h := reciprocalRankFusion_exact .default hconfig sampleKeywords (by decide) sampleVectors
    (by decide) ⟨id, .refl⟩
  refine ⟨h.1, h.2 _ _ _ _ (by decide) (by decide) (.inr ⟨rfl, ?_⟩)⟩
  exact ⟨by decide, by decide, by decide, by decide⟩

end AresaDb.Rag
