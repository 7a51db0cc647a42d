import AresaDb.Rag.Groups
import AresaDb.Rag.Sections

/-! # Sizes of chunks

Whether the current chunk is full is asked before the separator is put behind it.  So a chunk can
get over its limit by the separator, and then it is over the limit when it is saved.  The chunks of
two or more pieces are within the limit just when no step of the loop does that
(`chunk_limits_iff`); sections keep to theirs. -/

namespace AresaDb.Rag

open Text Greedy

variable {documentId content : String} {sep cur : List Char} {full : List Char → List Char → Bool}
  {pieces : List (List Char)} {p : List Char} {chunks : List DocumentChunk}
  {gs gs' : List (List (List Char))}

/-! ### What a chunk is formed from -/

/-- The chunks are groups of the pieces in their order, each joined by the separator. -/
structure FormedFrom (sep : List Char) (pieces : List (List Char)) (chunks : List DocumentChunk)
    (groups : List (List (List Char))) : Prop where
  flatten_eq : groups.flatten = pieces
  ne_nil : ∀ g ∈ groups, g ≠ []
  contents_eq : chunks.map (·.content.toList) = groups.map sep.intercalate

theorem formedFrom_groups (documentId : String) (sep : List Char)
    (full : List Char → List Char → Bool) (hpieces : ∀ p ∈ pieces, Piece p) :
    FormedFrom sep pieces (groupPieces documentId sep full pieces) (grouped sep full pieces) :=
  ⟨flatten_groups _ pieces, fun _ hg => ne_nil_of_mem hg, map_content_groupPieces hpieces⟩

/-- A joined text gives back how many of the pieces it has. -/
theorem eq_of_intercalate_eq {as bs : List (List Char)} (ha : as ≠ []) (hbs : ∀ p ∈ bs, p ≠ [])
    (h : sep.intercalate as = sep.intercalate (as ++ bs)) : bs = [] := by
  by_contra hb
  have hlen := congrArg List.length h
  have hjoin : sep.intercalate bs ≠ [] := intercalate_ne_nil hb hbs
  have hpos := List.length_pos_iff.mpr hjoin
  rw [Segments.intercalate_append ha hb, List.length_append, List.length_append] at hlen
  omega

/-- The joined texts tell the groups. -/
theorem groups_unique (hpieces : ∀ p ∈ gs.flatten, p ≠ []) (hflat : gs.flatten = gs'.flatten)
    (hne : ∀ g ∈ gs, g ≠ []) (hne' : ∀ g ∈ gs', g ≠ [])
    (hjoin : gs.map sep.intercalate = gs'.map sep.intercalate) : gs = gs' := by
  induction gs generalizing gs' with
  | nil => exact (List.map_eq_nil_iff.mp hjoin.symm).symm
  | cons g gs ih =>
      obtain ⟨g', gs', rfl⟩ : ∃ g' rest, gs' = g' :: rest := by
        cases gs' with
        | nil => exact absurd hjoin (List.cons_ne_nil _ _)
        | cons g' gs' => exact ⟨g', gs', rfl⟩
      obtain ⟨hg, hgs⟩ := List.forall_mem_cons.mp hne
      obtain ⟨hg', hgs'⟩ := List.forall_mem_cons.mp hne'
      obtain ⟨hhead, htail⟩ := List.cons.inj hjoin
      have hall := hflat ▸ hpieces
      rw [List.flatten_cons, List.forall_mem_append] at hpieces hall
      rw [List.flatten_cons, List.flatten_cons] at hflat
      -- One of the first groups begins the other.
      have hsame : g = g' := by
        obtain ⟨x, rfl, -⟩ | ⟨x, rfl, -⟩ := List.append_eq_append_iff.mp hflat
        · obtain rfl := eq_of_intercalate_eq hg
            (fun p hp => hall.1 p (List.mem_append_right g hp)) hhead
          exact (List.append_nil g).symm
        · obtain rfl := eq_of_intercalate_eq hg'
            (fun p hp => hpieces.1 p (List.mem_append_right g' hp)) hhead.symm
          exact List.append_nil g'
      subst hsame
      rw [ih hpieces.2 (List.append_cancel_left hflat) hgs hgs' htail]

theorem FormedFrom.unique (hpieces : ∀ p ∈ pieces, p ≠ []) (h : FormedFrom sep pieces chunks gs)
    (h' : FormedFrom sep pieces chunks gs') : gs = gs' :=
  groups_unique (h.flatten_eq.symm ▸ hpieces) (h.flatten_eq.trans h'.flatten_eq.symm) h.ne_nil
    h'.ne_nil (h.contents_eq.symm.trans h'.contents_eq)

/-! ### Chunks over the limit -/

/-- What is said of the content of every chunk that was formed from two pieces or more. -/
def OfTwo (sep : List Char) (pieces : List (List Char)) (chunks : List DocumentChunk)
    (P : String → Prop) : Prop :=
  ∀ groups, FormedFrom sep pieces chunks groups →
    ∀ pair ∈ chunks.zip groups, 2 ≤ pair.2.length → P pair.1.content

theorem forall_zip_iff {α β γ : Type} {f : α → γ} {h : β → γ} {P : β → γ → Prop} {as : List α}
    {bs : List β} (heq : as.map f = bs.map h) :
    (∀ pair ∈ as.zip bs, P pair.2 (f pair.1)) ↔ ∀ b ∈ bs, P b (h b) := by
  induction as generalizing bs with
  | nil =>
      obtain rfl := List.map_eq_nil_iff.mp heq.symm
      exact iff_of_true (List.forall_mem_nil _) (List.forall_mem_nil _)
  | cons a as ih =>
      cases bs with
      | nil => exact absurd heq (List.cons_ne_nil _ _)
      | cons b bs =>
          obtain ⟨hhead, htail⟩ := List.cons.inj heq
          rw [List.zip_cons_cons, List.forall_mem_cons, List.forall_mem_cons, ih htail, hhead]

theorem ofTwo_groupPieces_iff (documentId : String) (sep : List Char)
    (full : List Char → List Char → Bool) (hpieces : ∀ p ∈ pieces, Piece p)
    (Big : List Char → Prop) :
    OfTwo sep pieces (groupPieces documentId sep full pieces) (fun t => ¬ Big t.toList) ↔
      ∀ g ∈ grouped sep full pieces, 2 ≤ g.length → ¬ Big (sep.intercalate g) := by
  have hformed := formedFrom_groups documentId sep full hpieces
  have hzip := forall_zip_iff (P := fun g t => 2 ≤ g.length → ¬ Big t) hformed.contents_eq
  rw [← hzip]
  constructor
  · exact fun h => h _ hformed
  · intro h gs hgs
    rwa [FormedFrom.unique (fun p hp => (hpieces p hp).1) hgs hformed]

/-! ### The steps of the loop -/

/-- The state of the loop after some pieces. -/
def groupingAfter (documentId : String) (sep : List Char) (full : List Char → List Char → Bool)
    (done : List (List Char)) : Grouping :=
  done.foldl (groupStep documentId sep full) ⟨[], [], 0, 0⟩

/-- No piece that the current chunk is not full for gets it over the limit. -/
theorem groups_within_iff_steps (documentId : String) (hpieces : ∀ p ∈ pieces, p ≠ [])
    (Big : List Char → Prop) (hbig : ∀ t p, Big t → full t p) :
    (∀ g ∈ grouped sep full pieces, 2 ≤ g.length → ¬ Big (sep.intercalate g)) ↔
      ∀ done p rest, pieces = done ++ p :: rest → done ≠ [] →
        full (groupingAfter documentId sep full done).currentChunk p = false →
        ¬ Big ((groupingAfter documentId sep full done).currentChunk ++ sep ++ p) := by
  have hgroups : (∀ g ∈ grouped sep full pieces, 2 ≤ g.length → ¬ Big (sep.intercalate g)) ↔
      ∀ done p rest, pieces = done ++ p :: rest → ∀ g ∈ (grouped sep full done).getLast?,
        full (sep.intercalate g) p = false → ¬ Big (sep.intercalate (g ++ [p])) :=
    groups_within_iff fun g p => hbig _ p
  refine hgroups.trans (forall₄_congr fun done p rest heq => ?_)
  by_cases hnil : done = []
  · subst hnil
    exact iff_of_true (fun g hg => absurd hg (by simp [grouped, groups_nil])) fun hne =>
      absurd rfl hne
  have hdone : ∀ q ∈ done, q ≠ [] := fun q hq =>
    hpieces q (heq ▸ List.mem_append_left _ hq)
  obtain ⟨closed, g, hg, hcurrent, -⟩ :=
    (foldl_groupStep documentId sep full hdone hnil).exists_last
  have hgne : g ≠ [] := ne_nil_of_mem (hg ▸ List.mem_append_right closed
    (List.mem_singleton.mpr rfl))
  rw [hg, List.getLast?_concat, groupingAfter, hcurrent]
  simp only [Option.mem_some_iff, forall_eq', intercalate_concat hgne]
  exact ⟨fun h _ => h, fun h => h hnil⟩

/-! ### The limits -/

/-- Every chunk formed from two or more pieces, and every chunk of a section, is within the limit.
-/
def WithinLimit (documentId content : String) : ChunkStrategy → Prop
  | .fixedSize _ _ => True
  | .sentence maxTokens => ∀ sentences chunks, splitSentences content.toList = some sentences →
      chunk (.sentence maxTokens) documentId content = some chunks →
      OfTwo [' '] sentences chunks fun text => estimateTokens text ≤ maxTokens
  | .paragraph maxSize => ∀ chunks, chunk (.paragraph maxSize) documentId content = some chunks →
      OfTwo ['\n', '\n'] (paragraphs content.toList) chunks fun text => size text.toList ≤ maxSize
  | .semantic maxSize => ∀ chunks, chunk (.semantic maxSize) documentId content = some chunks →
      ∀ c ∈ chunks, c.content.toList.length ≤ maxSize

/-- At no step of the loop does the separator alone get the chunk over the limit. -/
def NoOverstep (documentId content : String) : ChunkStrategy → Prop
  | .fixedSize _ _ => True
  | .sentence maxTokens => ∀ sentences done sentence rest,
      splitSentences content.toList = some sentences → sentences = done ++ sentence :: rest →
      done ≠ [] →
      (groupingAfter documentId [' '] (sentencesFull maxTokens) done).currentChunk.length +
        sentence.length ≠ 4 * maxTokens + 3
  | .paragraph maxSize => ∀ done para rest,
      paragraphs content.toList = done ++ para :: rest → done ≠ [] →
      size (groupingAfter documentId ['\n', '\n'] (paragraphsFull maxSize) done).currentChunk +
        size para ≤ maxSize →
      size (groupingAfter documentId ['\n', '\n'] (paragraphsFull maxSize) done).currentChunk +
        size para + 2 ≤ maxSize
  | .semantic _ => True

theorem sentences_within_iff {sentences : List (List Char)} (maxTokens : ℕ)
    (hpieces : ∀ p ∈ sentences, Piece p) :
    OfTwo [' '] sentences (groupPieces documentId [' '] (sentencesFull maxTokens) sentences)
        (fun text => estimateTokens text ≤ maxTokens) ↔
      ∀ done p rest, sentences = done ++ p :: rest → done ≠ [] →
        (groupingAfter documentId [' '] (sentencesFull maxTokens) done).currentChunk.length +
          p.length ≠ 4 * maxTokens + 3 := by
  have hbig : ∀ t p : List Char, maxTokens < t.length / 4 → sentencesFull maxTokens t p := by
    intro t p ht
    rw [sentencesFull, decide_eq_true_eq]
    omega
  have hiff := (ofTwo_groupPieces_iff documentId [' '] (sentencesFull maxTokens) hpieces
    fun t => maxTokens < t.length / 4).trans
    (groups_within_iff_steps documentId (fun p hp => (hpieces p hp).1) _ hbig)
  simp only [not_lt] at hiff
  refine hiff.trans (forall₅_congr fun done p rest _ _ => ?_)
  simp only [sentencesFull, decide_eq_false_iff_not, List.length_append, List.length_singleton]
  omega

theorem paragraphs_within_iff {paras : List (List Char)} (documentId : String) (maxSize : ℕ)
    (hpieces : ∀ p ∈ paras, Piece p) :
    OfTwo ['\n', '\n'] paras (groupPieces documentId ['\n', '\n'] (paragraphsFull maxSize) paras)
        (fun text => size text.toList ≤ maxSize) ↔
      ∀ done p rest, paras = done ++ p :: rest → done ≠ [] →
        size (groupingAfter documentId ['\n', '\n'] (paragraphsFull maxSize) done).currentChunk +
          size p ≤ maxSize →
        size (groupingAfter documentId ['\n', '\n'] (paragraphsFull maxSize) done).currentChunk +
          size p + 2 ≤ maxSize := by
  have hbig : ∀ t p : List Char, maxSize < size t → paragraphsFull maxSize t p := by
    intro t p ht
    rw [paragraphsFull, decide_eq_true_eq]
    omega
  have hbreak : size ['\n', '\n'] = 2 := rfl
  have hiff := (ofTwo_groupPieces_iff documentId ['\n', '\n'] (paragraphsFull maxSize) hpieces
    fun t => maxSize < size t).trans
    (groups_within_iff_steps documentId (fun p hp => (hpieces p hp).1) _ hbig)
  simp only [not_lt] at hiff
  refine hiff.trans (forall₅_congr fun done p rest _ _ => ?_)
  simp only [paragraphsFull, decide_eq_false_iff_not, size_append, hbreak]
  omega

/-! ### Sections -/

theorem length_le_size (t : List Char) : t.length ≤ size t := by
  induction t with
  | nil => exact le_rfl
  | cons c t ih =>
      have hpos := c.utf8Size_pos
      rw [List.length_cons, size_cons]
      omega

theorem length_trim_le (t : List Char) : (trim t).length ≤ t.length := by
  obtain ⟨a, b, heq, -⟩ := exists_trim t
  have hlen := congrArg List.length heq
  rw [List.length_append, List.length_append] at hlen
  omega

theorem length_of_mem_chunkFixedSize {chunkSize overlap : ℕ} {c : DocumentChunk}
    (h : c ∈ chunkFixedSize documentId content chunkSize overlap) :
    c.content.toList.length ≤ chunkSize := by
  obtain ⟨j, place, total, -, rfl⟩ := mem_chunkFixedSize h
  rw [fixedChunk_content]
  exact List.length_take_le _ _

theorem length_of_mem_sectionChunks (documentId : String) (maxSize : ℕ) (sec : ℕ × List Char) :
    ∀ c ∈ sectionChunks documentId maxSize 0 sec, c.content.toList.length ≤ maxSize := by
  refine (forall_sectionChunks (fun _ _ s => s.toList.length ≤ maxSize) maxSize 0 sec).mpr ?_
  split_ifs with hsmall
  · rw [String.toList_ofList]
    exact ((length_trim_le sec.2).trans (length_le_size sec.2)).trans hsmall
  · exact fun sub hsub => length_of_mem_chunkFixedSize hsub

/-- The chunks keep to their limit when no step of the loop gets over it by the separator alone, and
sections always do. -/
theorem chunk_limits_iff (strategy : ChunkStrategy) (documentId content : String) :
    WithinLimit documentId content strategy ↔ NoOverstep documentId content strategy := by
  cases strategy with
  | fixedSize chunkSize overlap => exact Iff.rfl
  | sentence maxTokens =>
      have hpieces : ∀ sentences, splitSentences content.toList = some sentences →
          ∀ p ∈ sentences, Piece p := by
        intro sentences hsentences
        obtain ⟨a, e, -, -, ha⟩ := sentences_laid hsentences
        exact ha.piece
      constructor
      · intro h sentences done p rest hsentences
        refine (sentences_within_iff maxTokens (hpieces sentences hsentences)).mp ?_ done p rest
        exact h sentences _ hsentences (by rw [chunk, chunkBySentence, hsentences, Option.map_some])
      · intro h sentences chunks hsentences hchunks
        rw [chunk, chunkBySentence, hsentences, Option.map_some] at hchunks
        rw [← Option.some.inj hchunks]
        exact (sentences_within_iff maxTokens (hpieces sentences hsentences)).mpr
          fun done p rest => h sentences done p rest hsentences
  | paragraph maxSize =>
      have hpieces : ∀ p ∈ paragraphs content.toList, Piece p := by
        obtain ⟨a, e, -, -, ha⟩ := paragraphs_laid content.toList
        exact ha.piece
      have hiff := paragraphs_within_iff documentId maxSize hpieces
      refine Iff.trans ⟨fun h => h _ rfl, fun h chunks hchunks => ?_⟩ hiff
      rwa [← Option.some.inj hchunks]
  | semantic maxSize =>
      refine iff_of_true (fun chunks hchunks c hc => ?_) trivial
      rw [← Option.some.inj hchunks] at hc
      obtain ⟨d, hd, rfl⟩ := List.mem_map.mp hc
      exact (forall_semanticChunks (fun _ _ s => s.toList.length ≤ maxSize) 0
        (sections content.toList)).mpr
          (fun sec _ => length_of_mem_sectionChunks documentId maxSize sec) d hd

/-- Two characters and one are no token, but with the blank between them they are one. -/
theorem chunk_limit_overstepped : ¬ WithinLimit "d" "a. b" (.sentence 0) := by
  intro h
  have hsentences : splitSentences "a. b".toList = some [['a', '.'], ['b']] := by decide
  have hpieces : ∀ p ∈ [['a', '.'], ['b']], Piece p := by
    simp only [List.forall_mem_cons, List.not_mem_nil, false_imp_iff, implies_true, and_true, Piece]
    decide
  have hwithin := h _ _ hsentences (by rw [chunk, chunkBySentence, hsentences, Option.map_some])
  exact (sentences_within_iff 0 hpieces).mp hwithin [['a', '.']] ['b'] [] rfl
    (List.cons_ne_nil _ _) rfl

end AresaDb.Rag
