import AresaDb.Store.PropertyIndex

/-! # Full-text indexes

The full-text index of the local storage (`storage/local.rs`): a `FieldIndex` whose terms are the
tokens of a text, with the term frequencies of every document beside it.  A search collects the
documents of each token of the query, scores them, and returns the best.

The character tables of Unicode, the floating-point arithmetic of a score and the order in which a
hash map comes out are parameters. -/

namespace AresaDb.Store

/-- The character tables that tokens depend on. -/
structure Unicode where
  isAlphanumeric : Char → Bool
  toLowercase : String → String

/-- The tables on ASCII text. -/
def asciiUnicode : Unicode :=
  ⟨Char.isAlphanum, fun s => String.ofList (s.toList.map Char.toLower)⟩

def stopWords : List String :=
  ["a", "an", "the", "and", "or", "but", "in", "on", "at", "to", "for", "of", "with", "by", "is",
    "are", "was", "were", "be", "been", "being", "have", "has", "had", "do", "does", "did", "will",
    "would", "could", "should", "may", "might", "shall", "can", "it", "its", "this", "that",
    "these", "those", "i", "me", "my", "we", "our", "you", "your", "he", "she", "they", "them",
    "their", "not", "no", "so", "if", "as"]

/-- The words of a text, of more than one byte, in lower case, without stop words. -/
def tokenize (U : Unicode) (text : String) : List String :=
  let words := (text.toList.splitOnP fun c => !U.isAlphanumeric c).map String.ofList
  let long := words.filter fun w => 1 < w.utf8ByteSize
  (long.map U.toLowercase).filter fun w => w ∉ stopWords

/-- How often each token occurs. -/
def tokenizeAndCount (U : Unicode) (text : String) : OrdMap String ℕ :=
  (tokenize U text).foldl (fun counts token => counts.insert token (counts[token]?.getD 0 + 1)) ∅

/-- A string has its tokens for terms, other values have none. -/
def fulltextTerms (U : Unicode) : Value → List String
  | .string text => (tokenizeAndCount U text).toList.map Prod.fst
  | _ => []

/-- The arithmetic of scores: what a token adds, from the number of documents of the type, of those
with the token, and of its occurrences in the document. -/
structure Scoring where
  zero : Binary64
  add : Binary64 → Binary64 → Binary64
  bm25 : ℕ → ℕ → ℕ → Binary64

/-- The order in which a hash map gives its entries out. -/
structure HashOrder where
  order : List (NodeId × Binary64) → List (NodeId × Binary64)
  perm : ∀ l, (order l).Perm l

namespace LocalStorage

variable (U : Unicode) (s : LocalStorage)

/-- The tables of the full-text index, frequencies aside. -/
def fulltextFields : FieldIndex := ⟨s.fulltextRegistry, s.fulltextIndex⟩

def setFulltextFields (ix : FieldIndex) : LocalStorage :=
  { s with fulltextRegistry := ix.registry, fulltextIndex := ix.entries }

/-- Record the term frequencies of a document, if the field is a text. -/
def putDocFreq (nodeType field : String) (s : LocalStorage) (doc : NodeId × Props) : LocalStorage :=
  match doc.2[field]? with
  | some (.string text) =>
      { s with
        fulltextDocFreq :=
          s.fulltextDocFreq.insert (toLex (doc.1, registryKey nodeType field))
            (tokenizeAndCount U text) }
  | _ => s

/-- The document has a token in the field. -/
def hasTokens (field : String) (doc : NodeId × Props) : Bool :=
  match doc.2[field]? with
  | some value => fulltextTerms U value ≠ []
  | none => false

/-- The number of documents that were indexed comes with the storage. -/
def createFulltextIndex (nodeType field : String) : Option (ℕ × LocalStorage) :=
  if s.fulltextFields.Registered nodeType field then some (0, s)
  else
    (s.readPayloads nodeType).map fun docs =>
      let indexed := docs.filter (hasTokens U field)
      (indexed.length,
        indexed.foldl (putDocFreq U nodeType field)
          (s.setFulltextFields (s.fulltextFields.create (fulltextTerms U) nodeType field docs)))

/-- List a node for the text fields of its type, and record its term frequencies. -/
def updateFulltextIndex (id : NodeId) (nodeType : String) (properties : Props) : LocalStorage :=
  (s.fulltextFields.fieldsFor nodeType).foldl
    (fun s field => putDocFreq U nodeType field s (id, properties))
    (s.setFulltextFields (s.fulltextFields.update (fulltextTerms U) id nodeType properties))

/-- How often a token occurs in a document, as recorded. -/
def termFrequency (nodeType field token : String) (id : NodeId) : ℕ :=
  match s.fulltextDocFreq[toLex (id, registryKey nodeType field)]? with
  | some freqs => freqs[token]?.getD 0
  | none => 0

/-- Score the documents of a token. -/
def scoreToken (A : Scoring) (nodeType field : String) (scores : OrdMap NodeId Binary64)
    (token : String) : OrdMap NodeId Binary64 :=
  let ids := s.fulltextFields.lookup nodeType field token
  ids.foldl (fun scores id =>
    scores.insert id (A.add (scores[id]?.getD A.zero)
      (A.bm25 (s.nodeTypeIndex.get nodeType).length ids.length
        (s.termFrequency nodeType field token id)))) scores

/-- `none` is the error that there is no index on the field. -/
def fulltextSearch (A : Scoring) (H : HashOrder) (nodeType field query : String) (limit : ℕ) :
    Option (List (NodeId × Binary64)) :=
  if s.fulltextFields.Registered nodeType field then
    let scores := (tokenize U query).foldl (s.scoreToken A nodeType field) ∅
    let results := (H.order scores.toList).mergeSort fun a b => !(a.2.lt b.2)
    some (results.take limit)
  else none

end LocalStorage

/-! ### Tokens and candidates -/

theorem mem_fulltextTerms (U : Unicode) (text x : String) :
    x ∈ fulltextTerms U (.string text) ↔ x ∈ tokenize U text := by
  have hcount : ∀ (l : List String) (m : OrdMap String ℕ),
      (∃ n, (l.foldl (fun counts token =>
        counts.insert token (counts[token]?.getD 0 + 1)) m)[x]? = some n) ↔
          (∃ n, m[x]? = some n) ∨ x ∈ l := by
    intro l
    induction l with
    | nil => simp
    | cons token l ih =>
        intro m
        rw [List.foldl_cons, ih, OrdMap.get_insert, List.mem_cons]
        split_ifs with hx
        · simp [hx]
        · simp [Ne.symm hx]
  unfold fulltextTerms tokenizeAndCount
  rw [List.mem_map]
  constructor
  · rintro ⟨⟨x, n⟩, hmem, rfl⟩
    have hx := (hcount _ ∅).mp ⟨n, (OrdMap.mem_toList _ _ _).mp hmem⟩
    simpa using hx
  · intro hx
    obtain ⟨n, hn⟩ := (hcount _ ∅).mpr (.inr hx)
    exact ⟨(x, n), (OrdMap.mem_toList _ _ _).mpr hn, rfl⟩

namespace LocalStorage

variable {U : Unicode} {s : LocalStorage}

/-- The scored documents are those listed under a token. -/
theorem mem_scores (A : Scoring) (t f : String) (tokens : List String) (id : NodeId) :
    (∃ score, (tokens.foldl (s.scoreToken A t f) ∅)[id]? = some score) ↔
      ∃ token ∈ tokens, id ∈ s.fulltextFields.lookup t f token := by
  have hids : ∀ (score : OrdMap NodeId Binary64 → NodeId → Binary64) (ids : List NodeId)
      (m : OrdMap NodeId Binary64),
      (∃ x, (ids.foldl (fun scores id => scores.insert id (score scores id)) m)[id]? = some x) ↔
        (∃ x, m[id]? = some x) ∨ id ∈ ids := by
    intro score ids
    induction ids with
    | nil => simp
    | cons a ids ih =>
        intro m
        rw [List.foldl_cons, ih, OrdMap.get_insert, List.mem_cons]
        split_ifs with ha
        · simp [ha]
        · simp [Ne.symm ha]
  have htokens : ∀ (l : List String) (m : OrdMap NodeId Binary64),
      (∃ x, (l.foldl (s.scoreToken A t f) m)[id]? = some x) ↔
        (∃ x, m[id]? = some x) ∨ ∃ token ∈ l, id ∈ s.fulltextFields.lookup t f token := by
    intro l
    induction l with
    | nil => simp
    | cons token l ih =>
        intro m
        rw [List.foldl_cons, ih, List.exists_mem_cons_iff, ← or_assoc]
        exact or_congr_left (hids _ _ m)
  simpa using htokens tokens ∅

/-! ### Frequencies aside -/

theorem putDocFreq_eq (U : Unicode) (t f : String) (s : LocalStorage) (doc : NodeId × Props) :
    ∃ m, putDocFreq U t f s doc = { s with fulltextDocFreq := m } := by
  unfold putDocFreq
  split
  · exact ⟨_, rfl⟩
  · exact ⟨s.fulltextDocFreq, rfl⟩

theorem foldl_putDocFreq_eq {α : Type} (U : Unicode) (t f : α → String) (doc : α → NodeId × Props)
    (xs : List α) (s : LocalStorage) :
    ∃ m, xs.foldl (fun s x => putDocFreq U (t x) (f x) s (doc x)) s =
      { s with fulltextDocFreq := m } := by
  induction xs generalizing s with
  | nil => exact ⟨s.fulltextDocFreq, rfl⟩
  | cons x xs ih =>
      obtain ⟨m, hm⟩ := putDocFreq_eq U (t x) (f x) s (doc x)
      rw [List.foldl_cons, hm]
      exact ih _

theorem updateFulltextIndex_eq (U : Unicode) (s : LocalStorage) (id : NodeId) (t : String)
    (p : Props) :
    ∃ m, s.updateFulltextIndex U id t p =
      { s.setFulltextFields (s.fulltextFields.update (fulltextTerms U) id t p) with
        fulltextDocFreq := m } :=
  foldl_putDocFreq_eq U (fun _ => t) (fun field => field) (fun _ => (id, p)) _ _

theorem createFulltextIndex_eq (U : Unicode) (s : LocalStorage) (t f : String) :
    ∃ m, ((s.createFulltextIndex U t f).map Prod.snd).getD s =
      { s.setFulltextFields
          (if s.scanParses t then
            s.fulltextFields.create (fulltextTerms U) t f (s.scanPayloads t)
          else s.fulltextFields) with
        fulltextDocFreq := m } := by
  unfold createFulltextIndex readPayloads readRows scanParses
  by_cases hreg : s.fulltextFields.Registered t f
  · unfold FieldIndex.create
    rw [if_pos hreg, if_pos hreg, ite_self]
    exact ⟨s.fulltextDocFreq, rfl⟩
  · rw [if_neg hreg]
    split_ifs
    · exact foldl_putDocFreq_eq U (fun _ => t) (fun _ => f) id _ _
    · exact ⟨s.fulltextDocFreq, rfl⟩

end LocalStorage

end AresaDb.Store
