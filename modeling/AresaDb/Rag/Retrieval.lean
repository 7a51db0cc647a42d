import AresaDb.Lib.Budget
import AresaDb.Lib.StableSort
import AresaDb.Vectors.Freshness

/-! # Retrieval

The context of a question (`rag/context.rs`): the nearest nodes are searched for, those below a
score or no longer stored are passed over, and the rest taken as long as the estimated tokens fit.
The order is that of the search (`retrieve`) or that of a reranking (`retrieveWithReranking`).

The search may go by vectors that are outdated, but what is retrieved is read from the store, and
after any run it is the longest beginning of what is offered that fits (`retrieve_exact`,
`rerank_exact`). -/

namespace AresaDb.Rag

open AresaDb.Store AresaDb.Vectors

/-! ### Values -/

/-- `f as i64`: towards zero, up to the ends of the range, and 0 for a NaN. -/
def truncate (f : Binary64) : Int64 :=
  if f.isNaN then 0
  else
    let exponent := f.magnitude / 2 ^ 52
    let significand := 2 ^ 52 + f.magnitude % 2 ^ 52
    let whole : ℕ :=
      if exponent < 1075 then significand / 2 ^ (1075 - exponent)
      else significand * 2 ^ (exponent - 1075)
    if f.isNegative then .ofInt (max (-whole) (-2 ^ 63)) else .ofInt (min whole (2 ^ 63 - 1))

def asStr : Value → Option String
  | .string s => some s
  | _ => none

def asInt : Value → Option Int64
  | .int i => some (.ofInt i)
  | .float f => some (truncate f)
  | _ => none

/-! ### The retriever -/

structure ContextChunk where
  nodeId : String
  content : String
  score : Binary64
  distance : Binary64
  documentId : Option String
  chunkIndex : Option UInt64
  metadata : Option Json

structure RetrievedContext where
  chunks : List ContextChunk
  estimatedTokens : ℕ
  query : String

structure ContextRetriever where
  nodeType : String
  embeddingField : String
  contentField : String
  maxTokens : ℕ
  minScore : Binary64
  metric : DistanceMetric

def ContextRetriever.new : ContextRetriever where
  nodeType := "chunk"
  embeddingField := "embedding"
  contentField := "content"
  maxTokens := 4096
  minScore := .ofInt 0
  metric := .cosine

namespace ContextRetriever

def estimateTokens (text : String) : ℕ := text.toList.length / 4

variable (r : ContextRetriever)

def extractContent (node : Node) : String := ((node.properties[r.contentField]?).bind asStr).getD ""

/-- The chunk of a result, under a score. -/
def chunk (result : Vectors.SimilarityResult) (score : Binary64) (node : Node) : ContextChunk where
  nodeId := result.nodeId.display
  content := r.extractContent node
  score := score
  distance := result.distance
  documentId := (node.properties["document_id"]?).bind asStr
  chunkIndex := ((node.properties["chunk_index"]?).bind asInt).map Int64.toUInt64
  metadata := (node.properties["metadata"]?).map Value.toJson

variable (F : JsonFormat) (P : Platform) (T : UuidText)

/-- The loop over the results.  The storage changes with what a read puts into the cache; `none` is
the error of a read. -/
def collect : List Vectors.SimilarityResult → TieredStorage → ℕ → List ContextChunk →
    Option (List ContextChunk × ℕ)
  | [], _, total, chunks => some (chunks, total)
  | result :: results, s, total, chunks =>
      if result.score.lt r.minScore then collect results s total chunks
      else
        match Database.getNode F s T result.nodeId.display with
        | none => none
        | some (none, s) => collect results s total chunks
        | some (some node, s) =>
            let tokens := estimateTokens (r.extractContent node)
            if r.maxTokens < total + tokens then some (chunks, total)
            else
              collect results s (total + tokens) (chunks ++ [r.chunk result result.score node])

def retrieve (db : Handle) (queryVector : List Binary64) (queryText : String) :
    Option RetrievedContext := do
  let k := max 10 (min 100 (r.maxTokens / 100))
  let (results, db) := db.similaritySearch F P queryVector r.nodeType r.embeddingField k r.metric
  let (chunks, total) ← r.collect F T (← results) db.tiered 0 []
  return ⟨chunks, total, queryText⟩

/-- `0.5` -/
def half : Binary64 := ⟨0x3FE0000000000000⟩

/-- Half the score and half of what the reranker says. -/
def combine (score rerankScore : Binary64) : Binary64 :=
  P.f64.add (P.f64.mul score half) (P.f64.mul rerankScore half)

def scoredChunks (rerank : String → Binary64) :
    List Vectors.SimilarityResult → TieredStorage → Option (List ContextChunk)
  | [], _ => some []
  | result :: results, s =>
      if result.score.lt r.minScore then scoredChunks rerank results s
      else
        match Database.getNode F s T result.nodeId.display with
        | none => none
        | some (none, s) => scoredChunks rerank results s
        | some (some node, s) =>
            let score := combine P result.score (rerank (r.extractContent node))
            (scoredChunks rerank results s).map fun chunks => r.chunk result score node :: chunks

/-- The loop that takes chunks up to the limit. -/
def take : List ContextChunk → ℕ → List ContextChunk → List ContextChunk × ℕ
  | [], total, chunks => (chunks, total)
  | c :: rest, total, chunks =>
      if r.maxTokens < total + estimateTokens c.content then (chunks, total)
      else take rest (total + estimateTokens c.content) (chunks ++ [c])

def retrieveWithReranking (db : Handle) (queryVector : List Binary64) (queryText : String)
    (rerank : String → String → Binary64) : Option RetrievedContext := do
  let initialK := max 20 (min 200 (r.maxTokens / 50))
  let (results, db) :=
    db.similaritySearch F P queryVector r.nodeType r.embeddingField initialK r.metric
  let scored ← r.scoredChunks F P T (rerank queryText) (← results) db.tiered
  let (chunks, total) := r.take (scored.mergeSort fun a b => !(a.score.lt b.score)) 0 []
  return ⟨chunks, total, queryText⟩

/-- The chunks of the results that are not below the score and whose node is stored. -/
def offered (current : NodeId → Option Node) (score : Vectors.SimilarityResult → Node → Binary64)
    (results : List Vectors.SimilarityResult) : List ContextChunk :=
  results.filterMap fun result =>
    if result.score.lt r.minScore then none
    else (current result.nodeId).map fun node => r.chunk result (score result node) node

/-- The score of the search. -/
def searched (result : Vectors.SimilarityResult) (_ : Node) : Binary64 := result.score

/-- The score of a reranking. -/
def reranked (rerank : String → Binary64) (result : Vectors.SimilarityResult) (node : Node) :
    Binary64 :=
  combine P result.score (rerank (r.extractContent node))

end ContextRetriever

/-- What a chunk takes of the limit. -/
def ContextChunk.tokens (c : ContextChunk) : ℕ := ContextRetriever.estimateTokens c.content

/-- The context is the longest beginning of a list that fits the limit. -/
structure RetrievedContext.Fills (context : RetrievedContext) (limit : ℕ)
    (chunks : List ContextChunk) : Prop where
  begins : context.chunks <+: chunks
  counted : context.estimatedTokens = (context.chunks.map ContextChunk.tokens).sum
  fits : context.estimatedTokens ≤ limit
  full : ∀ c, context.chunks ++ [c] <+: chunks → limit < context.estimatedTokens + c.tokens

/-! ### The loops -/

namespace ContextRetriever

section

variable {r : ContextRetriever} {F : JsonFormat} {P : Platform} {T : UuidText}
  {nodes : OrdMap NodeId Node} {s : TieredStorage} {results : List Vectors.SimilarityResult}
  {total : ℕ} {chunks : List ContextChunk}

/-- A read finds the node that is kept, unless its payload does not parse. -/
theorem getNode_keeps (h : Keeps nodes s) (id : NodeId) :
    ∃ s', Keeps nodes s' ∧ Database.getNode F s T id.display =
      if (nodes[id]?).all (fun node => parses node.properties) then some (nodes[id]?, s')
      else none := by
  obtain ⟨s', hread, hlocal, hcoherent⟩ := h.coherent.getNode (J := F.serde) id
  refine ⟨s', h.read hlocal hcoherent, ?_⟩
  unfold Database.getNode
  rw [NodeId.parse_display]
  exact hread

section

variable {current : NodeId → Option Node} {score : Vectors.SimilarityResult → Node → Binary64}
  {result : Vectors.SimilarityResult}

theorem offered_low (h : result.score.lt r.minScore = true) :
    r.offered current score (result :: results) = r.offered current score results :=
  List.filterMap_cons_none (if_pos h)

theorem offered_missing (h : current result.nodeId = none) :
    r.offered current score (result :: results) = r.offered current score results := by
  refine List.filterMap_cons_none ?_
  rw [h, Option.map_none, ite_self]

theorem offered_found {node : Node} (hscore : ¬result.score.lt r.minScore = true)
    (h : current result.nodeId = some node) :
    r.offered current score (result :: results) =
      r.chunk result (score result node) node :: r.offered current score results := by
  refine List.filterMap_cons_some ?_
  rw [if_neg hscore, h, Option.map_some]

end

section

variable {c : ContextChunk} {l : List ContextChunk}

theorem take_full (h : r.maxTokens < total + c.tokens) :
    r.take (c :: l) total chunks = (chunks, total) := if_pos h

theorem take_fits (h : ¬r.maxTokens < total + c.tokens) :
    r.take (c :: l) total chunks = r.take l (total + c.tokens) (chunks ++ [c]) := if_neg h

theorem take_eq (l : List ContextChunk) :
    r.take l total chunks = (chunks ++ Budget.fill ContextChunk.tokens r.maxTokens total l,
      total + Budget.total ContextChunk.tokens
        (Budget.fill ContextChunk.tokens r.maxTokens total l)) := by
  induction l generalizing total chunks with
  | nil => simp [take, Budget.fill, Budget.total]
  | cons c l ih =>
      by_cases hfull : r.maxTokens < total + c.tokens
      · rw [take_full hfull, Budget.fill_full hfull, List.append_nil]
        rfl
      · rw [take_fits hfull, ih, Budget.fill_cons hfull, List.append_assoc, Budget.total_cons,
          ← Nat.add_assoc]
        rfl

end

theorem tokens_chunk (result : Vectors.SimilarityResult) (score : Binary64) (node : Node) :
    (r.chunk result score node).tokens = estimateTokens (r.extractContent node) := rfl

/-- The loop over the results takes of what is offered. -/
theorem collect_eq (h : Keeps nodes s) {out : List ContextChunk × ℕ}
    (hout : r.collect F T results s total chunks = some out) :
    out = r.take (r.offered (nodes[·]?) searched results) total chunks := by
  induction results generalizing s total chunks with
  | nil => exact (Option.some.inj hout).symm
  | cons result results ih =>
      unfold collect at hout
      split_ifs at hout with hlow
      · rw [offered_low hlow]
        exact ih h hout
      · obtain ⟨s', hs', hget⟩ := getNode_keeps (F := F) (T := T) h result.nodeId
        rw [hget] at hout
        cases hnode : nodes[result.nodeId]? with
        | none =>
            rw [offered_missing hnode]
            rw [hnode] at hout
            exact ih hs' hout
        | some node =>
            rw [offered_found hlow hnode]
            rw [hnode, Option.all_some] at hout
            split_ifs at hout with hparses
            change ite (r.maxTokens < total + estimateTokens (r.extractContent node)) _ _ = _
              at hout
            rw [← tokens_chunk result result.score] at hout
            change out = r.take (r.chunk result result.score node :: _) total chunks
            split_ifs at hout with hfull
            · rw [take_full hfull]
              exact (Option.some.inj hout).symm
            · rw [take_fits hfull]
              exact ih hs' hout

/-- The loop of a reranking puts together what is offered. -/
theorem scoredChunks_eq (h : Keeps nodes s) {rerank : String → Binary64} {out : List ContextChunk}
    (hout : r.scoredChunks F P T rerank results s = some out) :
    out = r.offered (nodes[·]?) (r.reranked P rerank) results := by
  induction results generalizing s out with
  | nil => exact (Option.some.inj hout).symm
  | cons result results ih =>
      unfold scoredChunks at hout
      split_ifs at hout with hlow
      · rw [offered_low hlow]
        exact ih h hout
      · obtain ⟨s', hs', hget⟩ := getNode_keeps (F := F) (T := T) h result.nodeId
        rw [hget] at hout
        cases hnode : nodes[result.nodeId]? with
        | none =>
            rw [offered_missing hnode]
            rw [hnode] at hout
            exact ih hs' hout
        | some node =>
            rw [offered_found hlow hnode]
            rw [hnode, Option.all_some] at hout
            split_ifs at hout with hparses
            obtain ⟨rest, hrest, rfl⟩ := Option.map_eq_some_iff.mp hout
            rw [ih hs' hrest]
            rfl

/-! A loop ends without an error if every payload that is stored parses. -/

theorem isSome_collect (h : Keeps nodes s)
    (hparses : ∀ id : NodeId, (nodes[id]?).all fun node => parses node.properties) :
    (r.collect F T results s total chunks).isSome := by
  induction results generalizing s total chunks with
  | nil => rfl
  | cons result results ih =>
      unfold collect
      split_ifs
      · exact ih h
      · obtain ⟨s', hs', hget⟩ := getNode_keeps (F := F) (T := T) h result.nodeId
        rw [hget, if_pos (hparses result.nodeId)]
        cases nodes[result.nodeId]? with
        | none => exact ih hs'
        | some node =>
            dsimp only
            split_ifs
            · rfl
            · exact ih hs'

theorem isSome_scoredChunks (h : Keeps nodes s) (rerank : String → Binary64)
    (hparses : ∀ id : NodeId, (nodes[id]?).all fun node => parses node.properties) :
    (r.scoredChunks F P T rerank results s).isSome := by
  induction results generalizing s with
  | nil => rfl
  | cons result results ih =>
      unfold scoredChunks
      split_ifs
      · exact ih h
      · obtain ⟨s', hs', hget⟩ := getNode_keeps (F := F) (T := T) h result.nodeId
        rw [hget, if_pos (hparses result.nodeId)]
        cases nodes[result.nodeId]? with
        | none => exact ih hs'
        | some node =>
            dsimp only
            rw [Option.isSome_map]
            exact ih hs'

theorem fills_take (context : RetrievedContext) {l : List ContextChunk}
    (h : (context.chunks, context.estimatedTokens) = r.take l 0 []) :
    context.Fills r.maxTokens l := by
  rw [take_eq, List.nil_append, Nat.zero_add] at h
  obtain ⟨hchunks, htokens⟩ := Prod.mk.inj h
  refine ⟨?_, ?_, ?_, fun c hc => ?_⟩
  · rw [hchunks]
    exact Budget.fill_prefix
  · rw [hchunks, htokens]
    rfl
  · rw [htokens, ← Nat.zero_add (Budget.total _ _)]
    exact Budget.total_fill (Nat.zero_le _)
  · rw [hchunks] at hc
    rw [htokens, ← Nat.zero_add (Budget.total _ _)]
    exact Budget.full_of_next hc

end

end ContextRetriever

/-! ### After any run -/

namespace ContextRetriever

variable (r : ContextRetriever) (F : JsonFormat) (P : Platform) (T : UuidText) (db : Handle)
  (q : List Binary64) (text : String)

/-- How many results a retrieval asks for. -/
def asked : ℕ := max 10 (min 100 (r.maxTokens / 100))

/-- How many results a retrieval with a reranking asks for. -/
def askedInitially : ℕ := max 20 (min 200 (r.maxTokens / 50))

/-- The search of a retrieval. -/
def search (k : ℕ) : Option (List Vectors.SimilarityResult) :=
  (db.similaritySearch F P q r.nodeType r.embeddingField k r.metric).1

/-- The storage after the search. -/
def afterSearch (k : ℕ) : TieredStorage :=
  (db.similaritySearch F P q r.nodeType r.embeddingField k r.metric).2.tiered

theorem retrieve_eq : r.retrieve F P T db q text =
    (r.search F P db q r.asked).bind fun results =>
      (r.collect F T results (r.afterSearch F P db q r.asked) 0 []).bind fun out =>
        some ⟨out.1, out.2, text⟩ := rfl

theorem retrieveWithReranking_eq (rerank : String → String → Binary64) :
    r.retrieveWithReranking F P T db q text rerank =
      (r.search F P db q r.askedInitially).bind fun results =>
        (r.scoredChunks F P T (rerank text) results
          (r.afterSearch F P db q r.askedInitially)).bind fun scored =>
          let out := r.take (scored.mergeSort fun a b => !(a.score.lt b.score)) 0 []
          some ⟨out.1, out.2, text⟩ := rfl

/-- The chunk is of a node that is stored, and has its content and the distance of its vector. -/
def IsCurrent (c : ContextChunk) : Prop :=
  ∃ id node v, db.stored F id = some node ∧
    typedVector r.nodeType r.embeddingField q.length node = some v ∧ c.nodeId = id.display ∧
    c.content = r.extractContent node ∧ c.distance = cosineDistance P q v

end ContextRetriever

section

variable {r : ContextRetriever} {F : JsonFormat} {P : Platform} {U : Unicode} {T : UuidText}
  {db : Handle} {q : List Binary64} {text : String} {k : ℕ}
  {results : List Vectors.SimilarityResult}
  {score : Vectors.SimilarityResult → Node → Binary64} {nodes : OrdMap NodeId Node} {w : Watched}

open ContextRetriever

/-- What is offered is current if the search sees current data. -/
theorem isCurrent_of_mem_offered (hsearch : r.search F P db q k = some results)
    (hsees : db.SeesCurrent F P q r.nodeType r.embeddingField k r.metric) {c : ContextChunk}
    (hc : c ∈ r.offered (db.stored F) score results) : r.IsCurrent F P db q c := by
  obtain ⟨result, hresult, hchunk⟩ := List.mem_filterMap.mp hc
  split_ifs at hchunk
  obtain ⟨node, hnode, rfl⟩ := Option.map_eq_some_iff.mp hchunk
  obtain ⟨v, hv, hdistance⟩ := hsees results hsearch result hresult
  rw [Handle.vectorAt, hnode] at hv
  exact ⟨result.nodeId, node, v, hnode, hv, rfl, rfl, hdistance⟩

theorem length_offered_le (hsearch : r.search F P db q k = some results) :
    (r.offered (db.stored F) score results).length ≤ k :=
  (List.length_filterMap_le _ _).trans (Handle.length_similaritySearch hsearch)

/-- A search changes nothing that is stored. -/
theorem afterSearch_keeps (h : Tracks P nodes w) (k : ℕ) :
    Keeps nodes (r.afterSearch F P w.db q k) :=
  (h.similaritySearch (F := F) (U := asciiUnicode) q r.nodeType r.embeddingField k r.metric).keeps

theorem retrieve_offered (h : Tracks P nodes w) {context : RetrievedContext}
    (hcontext : r.retrieve F P T w.db q text = some context) :
    ∃ results, r.search F P w.db q r.asked = some results ∧
      context.Fills r.maxTokens (r.offered (w.db.stored F) searched results) := by
  rw [retrieve_eq] at hcontext
  obtain ⟨results, hsearch, hrest⟩ := Option.bind_eq_some_iff.mp hcontext
  obtain ⟨out, hcollect, hout⟩ := Option.bind_eq_some_iff.mp hrest
  obtain rfl := Option.some.inj hout
  refine ⟨results, hsearch, fills_take _ ?_⟩
  rw [funext (stored_eq h.keeps)]
  exact collect_eq (afterSearch_keeps h r.asked) hcollect

theorem rerank_offered (h : Tracks P nodes w) {rerank : String → String → Binary64}
    {context : RetrievedContext}
    (hcontext : r.retrieveWithReranking F P T w.db q text rerank = some context) :
    ∃ results, r.search F P w.db q r.askedInitially = some results ∧
      context.Fills r.maxTokens
        ((r.offered (w.db.stored F) (r.reranked P (rerank text)) results).mergeSort
          fun a b => !(a.score.lt b.score)) := by
  rw [retrieveWithReranking_eq] at hcontext
  obtain ⟨results, hsearch, hrest⟩ := Option.bind_eq_some_iff.mp hcontext
  obtain ⟨scored, hscored, hout⟩ := Option.bind_eq_some_iff.mp hrest
  obtain rfl := Option.some.inj hout
  refine ⟨results, hsearch, fills_take _ ?_⟩
  rw [funext (stored_eq h.keeps),
    ← scoredChunks_eq (afterSearch_keeps h r.askedInitially) hscored]

end

/-- Without a NaN, the sort of a reranking is by the numbers. -/
theorem mergeSort_eq_sortOn {l : List ContextChunk} (h : ∀ c ∈ l, c.score.isNaN = false) :
    (l.mergeSort fun a b => !(a.score.lt b.score)) =
      StableSort.sortOn (fun c => OrderDual.toDual c.score.rank) l := by
  refine StableSort.mergeSort_congr fun a ha b hb => ?_
  rw [Binary64.lt, h a ha, h b hb, Bool.not_false, Bool.true_and, Bool.true_and, ← decide_not]
  exact decide_eq_decide.mpr Int.not_lt

/-- What is not after a member of a beginning is in the beginning. -/
theorem mem_of_prefix {α : Type} {R : α → α → Prop} {p l : List α} {a b : α} (h : l.Pairwise R)
    (hp : p <+: l) (ha : a ∈ p) (hb : b ∈ l) (hab : ¬R a b) : b ∈ p := by
  obtain ⟨rest, rfl⟩ := hp
  exact (List.mem_append.mp hb).resolve_right
    fun hrest => hab ((List.pairwise_append.mp h).2.2 a ha b hrest)

/-- What is retrieved after any run. -/
theorem retrieve_exact (F : JsonFormat) (P : Platform) (U : Unicode) (T : UuidText)
    (config : TieredConfig) (hasBucket : Bool) (ops : List VectorOp)
    (hfresh : Watched.Fresh F P U config hasBucket ops) {w : Watched}
    (hw : Watched.reached F P U config hasBucket ops = w) (r : ContextRetriever)
    (q : List Binary64) (text : String) :
    (∀ context, r.retrieve F P T w.db q text = some context →
      ∃ results, r.search F P w.db q r.asked = some results ∧ context.chunks.length ≤ 100 ∧
        context.Fills r.maxTokens
          (r.offered (w.db.stored F) ContextRetriever.searched results) ∧
        (w.outdated r.nodeType r.embeddingField = false →
          ∀ c ∈ context.chunks, r.IsCurrent F P w.db q c)) ∧
      ((∀ id, (w.db.stored F id).all fun node => parses node.properties) →
        (r.retrieve F P T w.db q text).isSome = (r.search F P w.db q r.asked).isSome) := by
  subst hw
  obtain ⟨nodes, h⟩ := tracks_reached hfresh
  refine ⟨fun context hcontext => ?_, fun hparses => ?_⟩
  · obtain ⟨results, hsearch, hfills⟩ := retrieve_offered h hcontext
    refine ⟨results, hsearch, ?_, hfills, fun houtdated c hc => ?_⟩
    · have hlength := hfills.begins.length_le.trans (length_offered_le hsearch)
      unfold ContextRetriever.asked at hlength
      omega
    · exact isCurrent_of_mem_offered hsearch (h.seesCurrent houtdated)
        (hfills.begins.subset hc)
  · rw [funext (stored_eq h.keeps)] at hparses
    rw [ContextRetriever.retrieve_eq]
    cases r.search F P _ q r.asked with
    | none => rfl
    | some results =>
        have hsome : (r.collect F T results (r.afterSearch F P _ q r.asked) 0 []).isSome :=
          ContextRetriever.isSome_collect (afterSearch_keeps h r.asked) hparses
        obtain ⟨out, hout⟩ := Option.isSome_iff_exists.mp hsome
        rw [Option.bind_some, hout]
        rfl

/-- The titles of documents, up to two tokens. -/
def titleRetriever : ContextRetriever :=
  { ContextRetriever.new with
    nodeType := "doc", embeddingField := "v", contentField := "title", maxTokens := 2 }

/-- Two documents that get titles after an index is filled. -/
def sampleTitles : List VectorOp :=
  [plainInsert 1 [1, 0], .similaritySearch [.ofInt 1, .ofInt 0] "doc" "v" 5 .cosine,
    embed 2 [0, 1], .updateNode 20 ⟨1⟩ (.object [("title", .string "abcdefgh")]),
    .updateNode 30 ⟨2⟩ (.object [("title", .string "abcd")])]

/-- The nearer one takes all of the limit. -/
theorem retrieve_exact_sample :
    (titleRetriever.retrieve plainFormat plainPlatform hexText (sampleReached sampleTitles).db
        [.ofInt 1, .ofInt 0] "").map (fun context => context.chunks.map ContextChunk.content) =
      some ["abcdefgh"] ∧
    ∃ context : RetrievedContext, context.Fills 2 (titleRetriever.offered
        ((sampleReached sampleTitles).db.stored plainFormat) ContextRetriever.searched
        (((titleRetriever.search plainFormat plainPlatform (sampleReached sampleTitles).db
          [.ofInt 1, .ofInt 0] 10)).getD [])) := by
  have hrun : (titleRetriever.retrieve plainFormat plainPlatform hexText
      (sampleReached sampleTitles).db [.ofInt 1, .ofInt 0] "").map
        (fun context => context.chunks.map ContextChunk.content) = some ["abcdefgh"] := by
    decide +kernel
  obtain ⟨hexact, -⟩ := retrieve_exact plainFormat plainPlatform asciiUnicode hexText
    ⟨1000, 0, false⟩ false sampleTitles (by decide +kernel) rfl titleRetriever
    [.ofInt 1, .ofInt 0] ""
  obtain ⟨context, hcontext, -⟩ := Option.map_eq_some_iff.mp hrun
  obtain ⟨results, hsearch, -, hfills, -⟩ := hexact context hcontext
  refine ⟨hrun, context, ?_⟩
  rw [show titleRetriever.search _ _ (sampleReached sampleTitles).db _ 10 = _ from hsearch]
  exact hfills

/-- What is retrieved with a reranking after any run. -/
theorem rerank_exact (F : JsonFormat) (P : Platform) (U : Unicode) (T : UuidText)
    (config : TieredConfig) (hasBucket : Bool) (ops : List VectorOp)
    (hfresh : Watched.Fresh F P U config hasBucket ops) {w : Watched}
    (hw : Watched.reached F P U config hasBucket ops = w) (r : ContextRetriever)
    (q : List Binary64) (text : String) (rerank : String → String → Binary64) :
    (∀ context, r.retrieveWithReranking F P T w.db q text rerank = some context →
      ∃ results, r.search F P w.db q r.askedInitially = some results ∧
        let offered := r.offered (w.db.stored F) (r.reranked P (rerank text)) results
        (∀ c ∈ context.chunks, c ∈ offered) ∧ context.chunks.length ≤ 200 ∧
          (w.outdated r.nodeType r.embeddingField = false →
            ∀ c ∈ context.chunks, r.IsCurrent F P w.db q c) ∧
          ((∀ c ∈ offered, c.score.isNaN = false) →
            context.Fills r.maxTokens
                (StableSort.sortOn (fun c => OrderDual.toDual c.score.rank) offered) ∧
              ∀ c ∈ context.chunks, ∀ c' ∈ offered, c.score.lt c'.score → c' ∈ context.chunks)) ∧
      ((∀ id, (w.db.stored F id).all fun node => parses node.properties) →
        (r.retrieveWithReranking F P T w.db q text rerank).isSome =
          (r.search F P w.db q r.askedInitially).isSome) := by
  subst hw
  obtain ⟨nodes, h⟩ := tracks_reached hfresh
  refine ⟨fun context hcontext => ?_, fun hparses => ?_⟩
  · obtain ⟨results, hsearch, hfills⟩ := rerank_offered h hcontext
    have hperm := List.mergeSort_perm
      (r.offered ((Watched.reached F P U config hasBucket ops).db.stored F)
        (r.reranked P (rerank text)) results) fun a b => !(a.score.lt b.score)
    have hmem : ∀ c ∈ context.chunks, c ∈ r.offered
        ((Watched.reached F P U config hasBucket ops).db.stored F)
        (r.reranked P (rerank text)) results :=
      fun c hc => hperm.mem_iff.mp (hfills.begins.subset hc)
    refine ⟨results, hsearch, hmem, ?_, fun houtdated c hc => ?_, fun hnumbers => ?_⟩
    · have hlength := hfills.begins.length_le
      rw [hperm.length_eq] at hlength
      have hasked := hlength.trans (length_offered_le hsearch)
      unfold ContextRetriever.askedInitially at hasked
      omega
    · exact isCurrent_of_mem_offered hsearch (h.seesCurrent houtdated) (hmem c hc)
    · rw [mergeSort_eq_sortOn hnumbers] at hfills
      refine ⟨hfills, fun c hc c' hc' hlt => ?_⟩
      refine mem_of_prefix (StableSort.sortOn_sorted _ _) hfills.begins hc
        ((StableSort.sortOn_perm _ _).mem_iff.mpr hc') fun hle => ?_
      have hrank : c'.score.rank ≤ c.score.rank := hle
      simp only [Binary64.lt, Bool.and_eq_true, decide_eq_true_eq] at hlt
      omega
  · rw [funext (stored_eq h.keeps)] at hparses
    rw [ContextRetriever.retrieveWithReranking_eq]
    cases r.search F P _ q r.askedInitially with
    | none => rfl
    | some results =>
        have hsome : (r.scoredChunks F P T (rerank text) results
            (r.afterSearch F P _ q r.askedInitially)).isSome :=
          ContextRetriever.isSome_scoredChunks (afterSearch_keeps h r.askedInitially) _ hparses
        obtain ⟨scored, hscored⟩ := Option.isSome_iff_exists.mp hsome
        rw [Option.bind_some, hscored]
        rfl

/-- Also the halves, as far as they are integers. -/
def halvingPlatform : Platform :=
  { plainPlatform with
    f64 := { integerArith with
      mul := fun x y =>
        if y = ContextRetriever.half then .ofInt (toInteger x / 2)
        else .ofInt (toInteger x * toInteger y) } }

/-- Of each two letters of the content one counts against it. -/
def preferShort (_ content : String) : Binary64 := .ofInt (-content.toList.length)

/-- What the titles reach on integers and their halves. -/
def sampleHalves : Handle :=
  (Watched.reached plainFormat halvingPlatform asciiUnicode ⟨1000, 0, false⟩ false sampleTitles).db

/-- What is offered of the titles. -/
def sampleOffered : List ContextChunk :=
  titleRetriever.offered (sampleHalves.stored plainFormat)
    (titleRetriever.reranked halvingPlatform (preferShort ""))
    ((titleRetriever.search plainFormat halvingPlatform sampleHalves [.ofInt 1, .ofInt 0]
      20).getD [])

/-- The farther one ranks higher. -/
theorem rerank_exact_sample :
    sampleOffered.map (fun c => (c.content, c.score)) =
        [("abcdefgh", .ofInt (-4)), ("abcd", .ofInt (-2))] ∧
      ∃ context : RetrievedContext,
        titleRetriever.retrieveWithReranking plainFormat halvingPlatform hexText sampleHalves
            [.ofInt 1, .ofInt 0] "" preferShort = some context ∧
          context.Fills 2
            (StableSort.sortOn (fun c => OrderDual.toDual c.score.rank) sampleOffered) := by
  have hsome : ((titleRetriever.search plainFormat halvingPlatform sampleHalves
      [.ofInt 1, .ofInt 0] titleRetriever.askedInitially).bind fun results =>
        titleRetriever.scoredChunks plainFormat halvingPlatform hexText (preferShort "") results
          (titleRetriever.afterSearch plainFormat halvingPlatform sampleHalves
            [.ofInt 1, .ofInt 0] titleRetriever.askedInitially)).isSome := by decide +kernel
  obtain ⟨scored, hbind⟩ := Option.isSome_iff_exists.mp hsome
  obtain ⟨results, hsearch, hscored⟩ := Option.bind_eq_some_iff.mp hbind
  obtain ⟨context, hrun⟩ : ∃ context, titleRetriever.retrieveWithReranking plainFormat
      halvingPlatform hexText sampleHalves [.ofInt 1, .ofInt 0] "" preferShort = some context := by
    rw [ContextRetriever.retrieveWithReranking_eq, hsearch, Option.bind_some, hscored]
    exact ⟨_, rfl⟩
  obtain ⟨hexact, -⟩ := rerank_exact plainFormat halvingPlatform asciiUnicode hexText
    ⟨1000, 0, false⟩ false sampleTitles (by decide +kernel) rfl titleRetriever
    [.ofInt 1, .ofInt 0] "" preferShort
  obtain ⟨results', hsearch', -, -, -, hranked⟩ := hexact context hrun
  have hoffered : sampleOffered = titleRetriever.offered (sampleHalves.stored plainFormat)
      (titleRetriever.reranked halvingPlatform (preferShort "")) results' := by
    rw [sampleOffered,
      show titleRetriever.search _ _ sampleHalves _ 20 = some results' from hsearch']
    rfl
  have hnumbers : ∀ c ∈ sampleOffered, c.score.isNaN = false := by decide +kernel
  refine ⟨by decide +kernel, context, hrun, ?_⟩
  rw [hoffered] at hnumbers ⊢
  exact (hranked hnumbers).1

end AresaDb.Rag
