import AresaDb.Lib.Greedy
import AresaDb.Lib.Segments
import AresaDb.Rag.Sentences

/-! # Groups of sentences and paragraphs

The loop that groups pieces makes the greedy groups (`groupPieces_eq`): the content of a chunk is
its group, joined, and it starts where the chunk before it ends.  So the chunks have the visible
characters of the pieces, which are those of the document (`grouped_chunks_keep_text`). -/

namespace AresaDb.Rag

open Text Greedy

variable {documentId content : String} {sep a b : List Char} {full : List Char → List Char → Bool}
  {pieces texts g : List (List Char)} {p t : List Char} {i start : ℕ}

/-! ### Joined groups -/

theorem intercalate_concat (hg : g ≠ []) (sep p : List Char) :
    sep.intercalate (g ++ [p]) = sep.intercalate g ++ sep ++ p := by
  rw [Segments.intercalate_append hg (List.cons_ne_nil p []), List.intercalate_singleton,
    List.append_assoc]

theorem intercalate_ne_nil (hg : g ≠ []) (hpieces : ∀ p ∈ g, p ≠ []) : sep.intercalate g ≠ [] := by
  obtain ⟨p, g, rfl⟩ := List.exists_cons_of_ne_nil hg
  have hp := hpieces p List.mem_cons_self
  cases g with
  | nil => rwa [List.intercalate_singleton]
  | cons q g =>
      rw [List.intercalate_cons_cons]
      simp [hp]

/-- The groups that a test of the joined pieces makes. -/
def grouped (sep : List Char) (full : List Char → List Char → Bool) (pieces : List (List Char)) :
    List (List (List Char)) := groups (fun g => full (sep.intercalate g)) pieces

theorem grouped_concat (sep : List Char) (full : List Char → List Char → Bool)
    (pieces : List (List Char)) (p : List Char) : grouped sep full (pieces ++ [p]) =
      add (fun g => full (sep.intercalate g)) (grouped sep full pieces) p := groups_concat _ _

/-- The groups of pieces, each joined. -/
def joined (sep : List Char) (full : List Char → List Char → Bool) (pieces : List (List Char)) :
    List (List Char) := (grouped sep full pieces).map sep.intercalate

theorem piece_of_mem_joined (hpieces : ∀ p ∈ pieces, Piece p) (ht : t ∈ joined sep full pieces) :
    Piece t := by
  obtain ⟨g, hg, rfl⟩ := List.mem_map.mp ht
  exact piece_intercalate (ne_nil_of_mem hg) fun p hp =>
    hpieces p (mem_of_mem_groups hg hp)

/-! ### The loop -/

/-- Chunks of texts, each starting where the one before it ends. -/
def groupChunks (documentId : String) : ℕ → ℕ → List (List Char) → List DocumentChunk
  | _, _, [] => []
  | i, start, t :: texts =>
      chunkAt documentId i start t :: groupChunks documentId (i + 1) (start + size t) texts

theorem groupChunks_concat (documentId : String) (i start : ℕ) (texts : List (List Char))
    (t : List Char) : groupChunks documentId i start (texts ++ [t]) =
      groupChunks documentId i start texts ++
        [chunkAt documentId (i + texts.length) (start + size texts.flatten) t] := by
  induction texts generalizing i start with
  | nil => rfl
  | cons u texts ih =>
      rw [List.cons_append, groupChunks, ih, groupChunks, List.flatten_cons, size_append,
        List.length_cons, List.cons_append]
      congr 4 <;> omega

/-- The loop has saved all groups but the last one. -/
structure Saved (documentId : String) (sep : List Char) (groups : List (List (List Char)))
    (s : Grouping) : Prop where
  exists_last : ∃ closed g, groups = closed ++ [g] ∧ s.currentChunk = sep.intercalate g ∧
    s.chunks = groupChunks documentId 0 0 (closed.map sep.intercalate) ∧
    s.currentStart = size (closed.map sep.intercalate).flatten ∧ s.chunkIndex = closed.length

theorem foldl_groupStep (documentId : String) (sep : List Char)
    (full : List Char → List Char → Bool) (hne : ∀ p ∈ pieces, p ≠ []) (h : pieces ≠ []) :
    Saved documentId sep (grouped sep full pieces)
      (pieces.foldl (groupStep documentId sep full) ⟨[], [], 0, 0⟩) := by
  induction pieces using List.reverseRecOn with
  | nil => exact absurd rfl h
  | append_singleton pieces p ih =>
      obtain ⟨hpieces, -⟩ := List.forall_mem_append.mp hne
      rw [List.foldl_append, List.foldl_cons, List.foldl_nil, grouped_concat]
      by_cases hnil : pieces = []
      · subst hnil
        refine ⟨[], [p], rfl, ?_, ?_, ?_, ?_⟩
        all_goals simp [groupStep, groupChunks]
      obtain ⟨closed, g, hg, hcurrent, hchunks, hstart, hindex⟩ := (ih hpieces hnil).exists_last
      have hgroup : sep.intercalate g ≠ [] := by
        have hmem : g ∈ grouped sep full pieces := hg ▸ List.mem_append_right closed (by simp)
        exact intercalate_ne_nil (ne_nil_of_mem hmem) fun q hq =>
          hpieces q (mem_of_mem_groups hmem hq)
      have hempty : (sep.intercalate g).isEmpty = false := by
        rw [Bool.eq_false_iff]
        exact fun h => hgroup (List.isEmpty_iff.mp h)
      rw [hg, add_concat, groupStep, hcurrent, hempty, Bool.not_false, Bool.and_true,
        if_neg Bool.false_ne_true]
      by_cases hfull : full (sep.intercalate g) p
      · rw [if_pos hfull, if_pos hfull]
        refine ⟨closed ++ [g], [p], by simp, by simp, ?_, ?_, ?_⟩
        · rw [List.map_append, List.map_singleton, groupChunks_concat, hchunks, hstart, hindex,
            List.length_map, Nat.zero_add, Nat.zero_add]
        · simp [hstart]
        · simp [hindex]
      · rw [if_neg hfull, if_neg hfull]
        have hgne : g ≠ [] := fun hnil => hgroup (by rw [hnil, List.intercalate_nil])
        exact ⟨closed, g ++ [p], rfl, (intercalate_concat hgne sep p).symm, hchunks, hstart, hindex⟩

/-- The chunks are the groups. -/
theorem groupPieces_eq (hpieces : ∀ p ∈ pieces, Piece p) :
    groupPieces documentId sep full pieces =
      setTotals (groupChunks documentId 0 0 (joined sep full pieces)) := by
  by_cases hnil : pieces = []
  · subst hnil
    rfl
  obtain ⟨closed, g, hg, hcurrent, hchunks, hstart, hindex⟩ :=
    (foldl_groupStep documentId sep full (fun p hp => (hpieces p hp).1) hnil).exists_last
  have hlast : Piece (sep.intercalate g) := piece_of_mem_joined hpieces
    (List.mem_map_of_mem (hg ▸ List.mem_append_right closed (by simp)))
  have hempty : ¬ (trim (sep.intercalate g)).isEmpty := by
    rw [hlast.2, List.isEmpty_iff]
    exact hlast.1
  rw [groupPieces, hcurrent, if_neg hempty, hchunks, hstart, hindex, joined, hg, List.map_append,
    List.map_singleton, groupChunks_concat, List.length_map, Nat.zero_add, Nat.zero_add]

/-! ### What the chunks hold -/

theorem mem_groupChunks {c : DocumentChunk} :
    c ∈ groupChunks documentId i start texts ↔ ∃ before t after, texts = before ++ t :: after ∧
      c = chunkAt documentId (i + before.length) (start + size before.flatten) t := by
  induction texts generalizing i start with
  | nil => simp [groupChunks]
  | cons t texts ih =>
      rw [groupChunks, List.mem_cons, ih]
      constructor
      · rintro (rfl | ⟨before, u, after, rfl, rfl⟩)
        · exact ⟨[], t, texts, rfl, rfl⟩
        · refine ⟨t :: before, u, after, rfl, ?_⟩
          rw [List.length_cons, List.flatten_cons, size_append]
          congr 1 <;> omega
      · rintro ⟨before, u, after, heq, rfl⟩
        cases before with
        | nil =>
            obtain ⟨rfl, rfl⟩ := List.cons.inj heq
            exact .inl rfl
        | cons x before =>
            obtain ⟨rfl, rfl⟩ := List.cons.inj heq
            refine .inr ⟨before, u, after, rfl, ?_⟩
            rw [List.length_cons, List.flatten_cons, size_append]
            congr 1 <;> omega

theorem map_content_groupChunks (documentId : String) (i start : ℕ) (texts : List (List Char)) :
    (groupChunks documentId i start texts).map (·.content.toList) = texts.map trim := by
  induction texts generalizing i start with
  | nil => rfl
  | cons t texts ih => rw [groupChunks, List.map_cons, ih, chunkAt, String.toList_ofList,
    List.map_cons]

/-- The chunks are numbered from the first one on, and so are their ids. -/
theorem map_chunkIndex_groupChunks (documentId : String) (i start : ℕ) (texts : List (List Char)) :
    (groupChunks documentId i start texts).map (·.chunkIndex) = List.range' i texts.length := by
  induction texts generalizing i start with
  | nil => rfl
  | cons t texts ih => rw [groupChunks, List.map_cons, ih, List.length_cons, List.range'_succ]; rfl

theorem id_of_mem_groupChunks {c : DocumentChunk} (h : c ∈ groupChunks documentId i start texts) :
    c.id = documentId ++ "_" ++ toString c.chunkIndex := by
  induction texts generalizing i start with
  | nil => exact absurd h List.not_mem_nil
  | cons t texts ih =>
      obtain rfl | h := List.mem_cons.mp h
      · rfl
      · exact ih h

theorem chunkId_injective (documentId : String) :
    Function.Injective fun i : ℕ => documentId ++ "_" ++ toString i := by
  intro i j h
  have hlist := congrArg String.toList h
  simp only [String.toList_append, List.append_cancel_left_eq, Nat.toString_eq_repr,
    Nat.toList_repr] at hlist
  have hdigits := congrArg (Nat.ofDigitChars 10 · 0) hlist
  simpa using hdigits

theorem map_setTotals {β : Type} (f : DocumentChunk → β) (chunks : List DocumentChunk)
    (hf : ∀ c n, f { c with totalChunks := n } = f c) :
        (setTotals chunks).map f = chunks.map f := by
  rw [setTotals, List.map_map]
  exact List.map_congr_left fun c _ => hf c _

/-- The chunks have the visible characters of the text and no others, none of them is empty, and
they are numbered. -/
structure KeepsText (content : String) (chunks : List DocumentChunk) : Prop where
  visible_eq : visible (chunks.flatMap (·.content.toList)) = visible content.toList
  content_ne : ∀ c ∈ chunks, c.content ≠ ""
  ids_nodup : (chunks.map (·.id)).Nodup
  chunkIndex_eq : chunks.map (·.chunkIndex) = List.range chunks.length
  totalChunks_eq : ∀ c ∈ chunks, c.totalChunks = chunks.length

theorem visible_flatMap {α : Type} (f : α → List Char) (l : List α) :
    visible (l.flatMap f) = l.flatMap fun a => visible (f a) := by
  induction l with
  | nil => rfl
  | cons a l ih => rw [List.flatMap_cons, visible_append, ih, List.flatMap_cons]

theorem visible_of_words {t : List Char} (h : words t = pieces.flatMap words) :
    visible t = pieces.flatMap visible := by
  rw [← flatten_words, h, ← List.flatMap_id, List.flatMap_assoc]
  simp only [List.flatMap_id, flatten_words]

/-- Joining the groups keeps what is visible. -/
theorem visible_joined (hne : sep ≠ []) (hsep : Blank sep) :
    (joined sep full pieces).flatMap visible = pieces.flatMap visible := by
  have hgroup : ∀ g ∈ grouped sep full pieces, visible (sep.intercalate g) = g.flatMap visible :=
    fun g _ => visible_of_words (words_intercalate hne hsep g)
  conv_rhs => rw [← flatten_groups (fun g => full (sep.intercalate g)) pieces]
  rw [joined, List.flatMap_map, List.flatMap_congr hgroup, ← List.flatMap_id, List.flatMap_assoc]
  rfl

theorem map_content_groupPieces (hpieces : ∀ p ∈ pieces, Piece p) :
    (groupPieces documentId sep full pieces).map (·.content.toList) = joined sep full pieces := by
  rw [groupPieces_eq hpieces, map_setTotals _ _ fun _ _ => rfl, map_content_groupChunks]
  exact (List.map_congr_left fun t ht => (piece_of_mem_joined hpieces ht).2).trans (List.map_id' _)

theorem groupPieces_keepsText {gap : ℕ} (hgap : 0 < gap) (hne : sep ≠ []) (hsep : Blank sep)
    {a e : List Char} (htext : content.toList = a ++ e) (he : Blank e) (ha : Laid gap 0 pieces a) :
    KeepsText content (groupPieces documentId sep full pieces) := by
  have hpieces := ha.piece
  have hmap {β : Type} (f : DocumentChunk → β) := map_setTotals f
    (groupChunks documentId 0 0 (joined sep full pieces))
  have hcontents : (groupPieces documentId sep full pieces).map (·.content.toList) =
      joined sep full pieces := map_content_groupPieces hpieces
  have hlength : (groupPieces documentId sep full pieces).length =
      (joined sep full pieces).length := by rw [← hcontents, List.length_map]
  have hindices : (groupPieces documentId sep full pieces).map (·.chunkIndex) =
      List.range (groupPieces documentId sep full pieces).length := by
    rw [hlength, groupPieces_eq hpieces, hmap _ fun _ _ => rfl, map_chunkIndex_groupChunks,
      List.range_eq_range']
  have hids : (groupPieces documentId sep full pieces).map (·.id) =
      (List.range (groupPieces documentId sep full pieces).length).map fun i =>
        documentId ++ "_" ++ toString i := by
    rw [← hindices, groupPieces_eq hpieces, hmap _ fun _ _ => rfl, hmap _ fun _ _ => rfl,
      List.map_map]
    exact List.map_congr_left fun c hc => id_of_mem_groupChunks hc
  constructor
  · rw [List.flatMap_def, hcontents, ← List.flatMap_id, visible_flatMap]
    simp only [id]
    rw [visible_joined hne hsep, htext, visible_append, visible_eq_nil.mpr he,
      List.append_nil, visible_of_words (ha.words_eq hgap)]
  · intro c hc hempty
    have hmem : c.content.toList ∈ joined sep full pieces :=
      hcontents ▸ List.mem_map_of_mem hc
    exact (piece_of_mem_joined hpieces hmem).1 (by rw [hempty]; rfl)
  · rw [hids]
    exact List.nodup_range.map (chunkId_injective documentId)
  · exact hindices
  · intro c hc
    obtain ⟨d, -, rfl⟩ := List.mem_map.mp hc
    exact (List.length_map _).symm

/-- Sentences and paragraphs keep the text of a document whose white space is ASCII. -/
theorem grouped_chunks_keep_text (documentId content : String) (limit : ℕ)
    (hascii : ∀ c ∈ content.toList, isWhitespace c → c.toNat < 128) :
    (∃ chunks, chunk (.sentence limit) documentId content = some chunks ∧
      KeepsText content chunks) ∧
    ∃ chunks, chunk (.paragraph limit) documentId content = some chunks ∧
      KeepsText content chunks := by
  constructor
  · have hskips : SkipsBytes content.toList := skipsBytes_of_one_byte fun c hc hwhite =>
      utf8Size_of_lt (hascii c hc hwhite)
    obtain ⟨sentences, hsentences⟩ :=
      Option.isSome_iff_exists.mp (splitSentences_isSome_iff.mpr hskips)
    obtain ⟨a, e, htext, he, ha⟩ := sentences_laid hsentences
    refine ⟨groupPieces documentId [' '] (sentencesFull limit) sentences, ?_, ?_⟩
    · rw [chunk, chunkBySentence, hsentences, Option.map_some]
    · exact groupPieces_keepsText (by decide) (by decide) (by decide) htext he ha
  · obtain ⟨a, e, htext, he, ha⟩ := paragraphs_laid content.toList
    exact ⟨_, rfl, groupPieces_keepsText (by decide) (by decide) (by decide) htext he ha⟩

theorem grouped_chunks_keep_text_sample :
    (∃ chunks, chunk (.sentence 0) "d" "a. b" = some chunks ∧ KeepsText "a. b" chunks) ∧
    ∃ chunks, chunk (.paragraph 0) "d" "a. b" = some chunks ∧ KeepsText "a. b" chunks :=
  grouped_chunks_keep_text "d" "a. b" 0 fun c hc _ =>
    ascii_of_all (t := "a. b".toList) (by decide) c hc

end AresaDb.Rag
