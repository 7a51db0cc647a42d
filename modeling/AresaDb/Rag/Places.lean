import AresaDb.Rag.Groups
import AresaDb.Rag.Sections

/-! # Places of chunks

Every chunk lies within the document: none of the strategies puts together more than the document
has (`chunk_within`).  A strategy gives no chunk only for a document that has nothing to give. -/

namespace AresaDb.Rag

open Text Greedy

variable {documentId content : String} {sep t : List Char} {full : List Char → List Char → Bool}
  {pieces : List (List Char)} {c : DocumentChunk} {chunks : List DocumentChunk} {m : ℕ}

/-- The chunk begins before it ends, and ends within a text of the size. -/
def Within (total : ℕ) (c : DocumentChunk) : Prop :=
  c.startOffset ≤ c.endOffset ∧ c.endOffset ≤ total

/-! ### Groups -/

/-- Joined group by group the pieces take no more than joined all in a row. -/
theorem size_flatten_le {gs : List (List (List Char))} (hne : ∀ g ∈ gs, g ≠ []) :
    size (gs.map sep.intercalate).flatten ≤ size (sep.intercalate gs.flatten) := by
  induction gs with
  | nil => exact Nat.zero_le _
  | cons g gs ih =>
      obtain ⟨hg, hgs⟩ := List.forall_mem_cons.mp hne
      have hrest := ih hgs
      rw [List.map_cons, List.flatten_cons, List.flatten_cons, size_append]
      by_cases hnil : gs.flatten = []
      · have hgs : gs = [] := by
          cases gs with
          | nil => rfl
          | cons h gs => simp [(List.forall_mem_cons.mp hgs).1] at hnil
        simp [hgs]
      · rw [Segments.intercalate_append hg hnil]
        simp only [size_append]
        omega

/-- What does not depend on the number of chunks. -/
def Untotalled (P : DocumentChunk → Prop) : Prop := ∀ c n, P { c with totalChunks := n } ↔ P c

theorem forall_setTotals {P : DocumentChunk → Prop} (hP : Untotalled P) :
    (∀ c ∈ setTotals chunks, P c) ↔ ∀ c ∈ chunks, P c := by
  rw [setTotals, List.forall_mem_map]
  exact forall₂_congr fun c _ => hP c _

theorem within_untotalled (total : ℕ) : Untotalled (Within total) := fun _ _ => Iff.rfl

/-- The chunks of groups are those of the joined texts, each behind those before it. -/
theorem forall_groupPieces {P : DocumentChunk → Prop} (hP : Untotalled P)
    (hpieces : ∀ p ∈ pieces, Piece p) :
    (∀ c ∈ groupPieces documentId sep full pieces, P c) ↔
      ∀ before t after, joined sep full pieces = before ++ t :: after →
        P (chunkAt documentId before.length (size before.flatten) t) := by
  rw [groupPieces_eq hpieces, forall_setTotals hP]
  constructor
  · intro h before t after heq
    have hchunk := h (chunkAt documentId (0 + before.length) (0 + size before.flatten) t)
      (mem_groupChunks.mpr ⟨before, t, after, heq, rfl⟩)
    rwa [Nat.zero_add, Nat.zero_add] at hchunk
  · intro h c hc
    obtain ⟨before, t, after, heq, rfl⟩ := mem_groupChunks.mp hc
    simpa using h before t after heq

theorem size_joined_le (h : Laid (size sep) m pieces t) :
    size (joined sep full pieces).flatten ≤ size t := by
  by_cases hnil : pieces = []
  · subst hnil
    exact Nat.zero_le _
  have hgroups : size ((grouped sep full pieces).map sep.intercalate).flatten ≤
      size (sep.intercalate (grouped sep full pieces).flatten) :=
    size_flatten_le fun g hg => ne_nil_of_mem hg
  have hflatten : (grouped sep full pieces).flatten = pieces := flatten_groups _ _
  have hjoin := h.size_join_le hnil
  rw [hflatten] at hgroups
  rw [joined]
  omega

theorem groupPieces_within (h : Laid (size sep) m pieces t) :
    ∀ c ∈ groupPieces documentId sep full pieces, Within (size t) c := by
  rw [forall_groupPieces (within_untotalled _) h.piece]
  intro before u after heq
  have hsize : size (joined sep full pieces).flatten ≤ size t := size_joined_le h
  rw [heq, List.flatten_append, List.flatten_cons, size_append, size_append] at hsize
  refine ⟨Nat.le_add_right _ _, ?_⟩
  show size before.flatten + size u ≤ size t
  omega

theorem within_of_laid {a e : List Char} (heq : t = a ++ e) (ha : Laid (size sep) m pieces a) :
    ∀ c ∈ groupPieces documentId sep full pieces, Within (size t) c := by
  intro c hc
  obtain ⟨hle, hend⟩ := groupPieces_within ha c hc
  have hsize := congrArg size heq
  rw [size_append] at hsize
  exact ⟨hle, by omega⟩

/-! ### Windows and sections -/

theorem chunkFixedSize_within {chunkSize overlap : ℕ} :
    ∀ c ∈ chunkFixedSize documentId content chunkSize overlap, Within (size content.toList) c := by
  intro c hc
  obtain ⟨j, place, total, -, rfl⟩ := mem_chunkFixedSize hc
  have hslice := slice_isSome.mp (Option.isSome_iff_exists.mpr
    ⟨_, fixedChunk_slice documentId content.toList chunkSize j place⟩)
  obtain ⟨hle, -, a, b, heq, hend⟩ := hslice
  have hsize := congrArg size heq
  rw [size_append] at hsize
  exact ⟨hle, show (fixedChunk documentId content.toList chunkSize j place).endOffset ≤ _ by omega⟩

theorem sectionChunks_within {maxSize i : ℕ} {sec : ℕ × List Char} {total : ℕ}
    (hsec : sec.1 + size sec.2 ≤ total) :
    ∀ c ∈ sectionChunks documentId maxSize i sec, Within total c := by
  refine (forall_sectionChunks (fun start stop _ => start ≤ stop ∧ stop ≤ total) maxSize i sec).mpr
    ?_
  split_ifs with hsmall
  · exact ⟨Nat.le_add_right _ _, hsec⟩
  · intro sub hsub
    obtain ⟨hle, hend⟩ := chunkFixedSize_within sub hsub
    rw [String.toList_ofList] at hend
    exact ⟨by omega, by omega⟩

/-- Every chunk of every strategy lies within the document. -/
theorem chunk_within {strategy : ChunkStrategy}
    (h : chunk strategy documentId content = some chunks) :
    ∀ c ∈ chunks, Within (size content.toList) c := by
  cases strategy with
  | fixedSize chunkSize overlap =>
      obtain rfl := Option.some.inj h
      exact chunkFixedSize_within
  | sentence maxTokens =>
      obtain ⟨sentences, hsentences, rfl⟩ := Option.map_eq_some_iff.mp h
      obtain ⟨a, e, heq, -, ha⟩ := sentences_laid hsentences
      exact within_of_laid heq ha
  | paragraph maxSize =>
      obtain rfl := Option.some.inj h
      obtain ⟨a, e, heq, -, ha⟩ := paragraphs_laid content.toList
      exact within_of_laid heq ha
  | semantic maxSize =>
      obtain rfl := Option.some.inj h
      rw [chunkSemantic, forall_setTotals (within_untotalled _)]
      exact (forall_semanticChunks (fun start stop _ => start ≤ stop ∧ stop ≤ size content.toList) 0
        (sections content.toList)).mpr fun sec hsec =>
          sectionChunks_within (le_size_of_mem_sections hsec)

end AresaDb.Rag
