import AresaDb.Rag.Places

/-! # Context windows

A window around a chunk is cut so many bytes before and behind it, wherever that is.  As the number
of bytes goes over all values, the window begins and ends everywhere, so it is cut inside every
character of more than one byte; and in a build that checks additions, the largest numbers are a
panic around any chunk that does not end at byte 0 (`never_panics_iff`). -/

namespace AresaDb.Rag

open Text Greedy

variable {documentId content : String} {sep t : List Char} {full : List Char → List Char → Bool}
  {pieces : List (List Char)} {c : DocumentChunk} {chunks : List DocumentChunk} {checked : Bool}

/-! ### Windows at every place -/

theorem lt_of_utf8Size {c : Char} (h : c.utf8Size = 1) : c.toNat < 128 := by
  have hle := Char.utf8Size_eq_one_iff.mp h
  have hnat : c.val.toNat ≤ 127 := hle
  exact Nat.lt_succ_of_le hnat

/-- Every byte is between two characters when all of them are single bytes. -/
theorem forall_boundary_iff : (∀ n ≤ size t, Boundary n t) ↔ Ascii t := by
  constructor
  · intro h c hc
    obtain ⟨a, b, rfl⟩ := List.append_of_mem hc
    refine lt_of_utf8Size ?_
    by_contra hsize
    have hpos := c.utf8Size_pos
    have hinside : (sliceFrom (size a + 1) (a ++ c :: b)).isSome :=
      sliceFrom_isSome.mpr (h (size a + 1) (by rw [size_append, size_cons]; omega))
    rw [sliceFrom_inside hsize] at hinside
    exact Bool.noConfusion hinside
  · intro h n hn
    rw [h.size_eq] at hn
    have htake : Ascii (t.take n) := fun c hc => h c (List.mem_of_mem_take hc)
    exact ⟨t.take n, t.drop n, (List.take_append_drop n t).symm, by
      rw [htake.size_eq, List.length_take, Nat.min_eq_left hn]⟩

theorem getContextWindow_isSome {k stop : ℕ} (h : addUsize checked c.endOffset k = some stop) :
    (getContextWindow checked content c k).isSome ↔
      (slice (c.startOffset - k) (min stop (size content.toList)) content.toList).isSome := by
  rw [getContextWindow, h, Option.bind_some, Option.isSome_map]

/-- All windows around a chunk are cut between characters. -/
theorem forall_window_iff (hc : Within (size content.toList) c)
    (hsize : size content.toList < 2 ^ 63) :
    (∀ k < 2 ^ 64, (getContextWindow checked content c k).isSome) ↔
      Ascii content.toList ∧ (checked → c.endOffset = 0) := by
  obtain ⟨hle, hend⟩ := hc
  constructor
  · intro h
    have hchecked : checked → c.endOffset = 0 := by
      intro hchecked
      by_contra hpos
      have hnone : addUsize checked c.endOffset (2 ^ 64 - 1) = none := by
        rw [addUsize, if_neg (by omega), if_pos hchecked]
      have hsome := h (2 ^ 64 - 1) (by omega)
      rw [getContextWindow, hnone] at hsome
      exact Bool.noConfusion hsome
    refine ⟨forall_boundary_iff.mp fun n hn => ?_, hchecked⟩
    by_cases hbefore : c.endOffset ≤ n
    · have hsum : addUsize checked c.endOffset (n - c.endOffset) = some n := by
        rw [addUsize, if_pos (by omega), Nat.add_sub_cancel' hbefore]
      have hslice := (getContextWindow_isSome hsum).mp (h _ (by omega))
      rw [Nat.min_eq_left hn] at hslice
      exact (slice_isSome.mp hslice).2.2
    · -- The sum wraps around to a place before the chunk.
      have hunchecked : ¬ checked := fun hc => by
        have hzero := hchecked hc
        omega
      have hsum : addUsize checked c.endOffset (2 ^ 64 - c.endOffset + n) = some n := by
        rw [addUsize, if_neg (by omega), if_neg hunchecked]
        congr 1
        omega
      have hslice := (getContextWindow_isSome hsum).mp (h _ (by omega))
      rw [Nat.min_eq_left hn] at hslice
      exact (slice_isSome.mp hslice).2.2
  · rintro ⟨hascii, hchecked⟩ k hk
    have hboundary := forall_boundary_iff.mpr hascii
    by_cases hfits : c.endOffset + k < 2 ^ 64
    · have hsum : addUsize checked c.endOffset k = some (c.endOffset + k) := if_pos hfits
      rw [getContextWindow_isSome hsum, slice_isSome]
      exact ⟨by omega, hboundary _ (by omega), hboundary _ (by omega)⟩
    · have hunchecked : ¬ checked := fun hc => by
        have hzero := hchecked hc
        omega
      have hsum : addUsize checked c.endOffset k = some ((c.endOffset + k) % 2 ^ 64) := by
        rw [addUsize, if_neg hfits, if_neg hunchecked]
      -- The window begins at byte 0, for so many bytes are more than the text has.
      rw [getContextWindow_isSome hsum, slice_isSome]
      exact ⟨by omega, hboundary _ (by omega), hboundary _ (by omega)⟩

/-- The chunker returns, and so do all windows around the chunks. -/
def NeverPanics (checked : Bool) (strategy : ChunkStrategy) (documentId content : String) : Prop :=
  ∃ chunks, chunk strategy documentId content = some chunks ∧
    ∀ c ∈ chunks, ∀ k < 2 ^ 64, (getContextWindow checked content c k).isSome

theorem neverPanics_iff_chunks {strategy : ChunkStrategy} (hsize : size content.toList < 2 ^ 63) :
    NeverPanics checked strategy documentId content ↔
      ∃ chunks, chunk strategy documentId content = some chunks ∧
        (chunks = [] ∨ Ascii content.toList ∧ (checked → ∀ c ∈ chunks, c.endOffset = 0)) := by
  refine exists_congr fun chunks => and_congr_right fun hchunks => ?_
  have hwithin := chunk_within hchunks
  constructor
  · intro h
    cases chunks with
    | nil => exact .inl rfl
    | cons c chunks =>
        have hwindow : ∀ d ∈ c :: chunks, Ascii content.toList ∧ (checked → d.endOffset = 0) :=
          fun d hd => (forall_window_iff (hwithin d hd) hsize).mp (h d hd)
        exact .inr ⟨(hwindow c List.mem_cons_self).1, fun hchecked d hd =>
          (hwindow d hd).2 hchecked⟩
  · rintro (rfl | ⟨hascii, hchecked⟩) c hc
    · exact absurd hc List.not_mem_nil
    · exact (forall_window_iff (hwithin c hc) hsize).mpr ⟨hascii, fun h => hchecked h c hc⟩

/-! ### Groups -/

/-- A chunk of pieces ends behind byte 0. -/
theorem groupPieces_ends_iff (hpieces : ∀ p ∈ pieces, Piece p) :
    (∀ c ∈ groupPieces documentId sep full pieces, c.endOffset = 0) ↔ pieces = [] := by
  have huntotalled : Untotalled fun c => c.endOffset = 0 := fun _ _ => Iff.rfl
  rw [forall_groupPieces huntotalled hpieces]
  constructor
  · intro h
    by_contra hnil
    have hne : joined sep full pieces ≠ [] := by
      rw [joined, ne_eq, List.map_eq_nil_iff, grouped, groups_eq_nil]
      exact hnil
    obtain ⟨u, texts, heq⟩ := List.exists_cons_of_ne_nil hne
    have hu : Piece u := piece_of_mem_joined hpieces (heq ▸ List.mem_cons_self)
    have hend : size ([] : List (List Char)).flatten + size u = 0 := h [] u texts heq
    exact hu.1 (size_eq_zero.mp (by omega))
  · rintro rfl before u after heq
    have hnil : before ++ u :: after = [] := heq.symm
    exact absurd hnil (by simp)

theorem groupPieces_eq_nil (hpieces : ∀ p ∈ pieces, Piece p) :
    groupPieces documentId sep full pieces = [] ↔ pieces = [] := by
  constructor
  · intro h
    exact (groupPieces_ends_iff hpieces).mp (h ▸ List.forall_mem_nil _)
  · rintro rfl
    rfl

/-- A text without pieces is white space. -/
theorem laid_nil_iff {a e : List Char} {gap m : ℕ} (ha : Laid gap m pieces a) (he : Blank e) :
    pieces = [] ↔ Blank (a ++ e) := by
  cases ha with
  | nil m => exact iff_of_true rfl he
  | cons hw hm hp hrest =>
      refine iff_of_false (List.cons_ne_nil _ _) fun hblank => hp.not_blank ?_
      exact (blank_append.mp (blank_append.mp (blank_append.mp hblank).1).2).1

theorem grouped_harmless_iff {a e : List Char} {gap m : ℕ} (ht : t = a ++ e) (he : Blank e)
    (ha : Laid gap m pieces a) :
    (groupPieces documentId sep full pieces = [] ∨ Ascii t ∧
        (checked → ∀ c ∈ groupPieces documentId sep full pieces, c.endOffset = 0)) ↔
      Blank t ∨ Ascii t ∧ checked = false := by
  have hblank : pieces = [] ↔ Blank t := ht ▸ laid_nil_iff ha he
  rw [groupPieces_eq_nil ha.piece, groupPieces_ends_iff ha.piece, hblank]
  cases checked
  · simp
  · simp only [true_imp_iff, Bool.true_eq_false, and_false, or_false]
    exact ⟨fun h => h.elim id And.right, .inl⟩

theorem skipsBytes_of_blank (h : Blank t) : SkipsBytes t := by
  rintro a c b rfl hc
  have hwhite : isWhitespace c := (blank_cons.mp (blank_append.mp h).2).1
  rw [not_endsSentence_of_isWhitespace hwhite] at hc
  exact Bool.noConfusion hc

/-! ### Windows of a fixed size -/

theorem chunkFixedSize_eq_nil {chunkSize overlap : ℕ} :
    chunkFixedSize documentId content chunkSize overlap = [] ↔ content.toList = [] := by
  rw [chunkFixedSize]
  constructor
  · intro h
    by_contra hne
    have hlen : 0 < content.toList.length := List.length_pos_iff.mpr hne
    rw [if_neg hlen.ne', fixedChunks, if_pos hlen] at h
    exact absurd h (by simp [setTotals])
  · intro h
    rw [h]
    rfl

theorem fixedChunk_ends_iff {chars : List Char} {chunkSize i start : ℕ} :
    (fixedChunk documentId chars chunkSize i start).endOffset = 0 ↔
      min (start + chunkSize) chars.length = 0 := by
  show size (chars.take (min (start + chunkSize) chars.length)) = 0 ↔ _
  rw [size_eq_zero, List.take_eq_nil_iff, ← List.length_eq_zero_iff]
  omega

/-- The windows all end at byte 0 when there is one, of no size. -/
theorem chunkFixedSize_ends_iff {chunkSize overlap : ℕ} (hne : content.toList ≠ []) :
    (∀ c ∈ chunkFixedSize documentId content chunkSize overlap, c.endOffset = 0) ↔
      chunkSize = 0 ∧ content.toList.length = 1 := by
  have huntotalled : Untotalled fun c => c.endOffset = 0 := fun _ _ => Iff.rfl
  have hlen : 0 < content.toList.length := List.length_pos_iff.mpr hne
  rw [chunkFixedSize, if_neg hlen.ne', forall_setTotals huntotalled, fixedChunks, if_pos hlen,
    List.forall_mem_cons, fixedChunk_ends_iff]
  constructor
  · rintro ⟨hfirst, hrest⟩
    obtain rfl : chunkSize = 0 := by omega
    refine ⟨rfl, ?_⟩
    by_contra hone
    rw [if_neg (by omega), fixedChunks, if_pos (by omega), List.forall_mem_cons,
      fixedChunk_ends_iff] at hrest
    omega
  · rintro ⟨rfl, hone⟩
    refine ⟨by omega, ?_⟩
    rw [if_neg (by omega), fixedChunks, if_neg (by omega)]
    exact List.forall_mem_nil _

/-! ### Sections -/

theorem sectionChunks_ends_iff {maxSize i : ℕ} {sec : ℕ × List Char} (hne : sec.2 ≠ []) :
    (∀ c ∈ sectionChunks documentId maxSize i sec, c.endOffset = 0) ↔
      maxSize = 0 ∧ sec.1 = 0 ∧ sec.2.length = 1 := by
  have hpos : 0 < size sec.2 := Nat.pos_of_ne_zero fun h => hne (size_eq_zero.mp h)
  refine (forall_sectionChunks (fun _ stop _ => stop = 0) maxSize i sec).trans ?_
  split_ifs with hsmall
  · refine iff_of_false (fun h => ?_) fun h => ?_
    · omega
    · omega
  · have hlist : (String.ofList sec.2).toList ≠ [] := by rwa [String.toList_ofList]
    have hends : (∀ sub ∈ chunkFixedSize (documentId ++ "_section") (.ofList sec.2) maxSize 50,
        sub.endOffset = 0) ↔ maxSize = 0 ∧ sec.2.length = 1 := by
      rw [chunkFixedSize_ends_iff hlist, String.toList_ofList]
    obtain ⟨first, hfirst⟩ := List.exists_mem_of_ne_nil
      (chunkFixedSize (documentId ++ "_section") (.ofList sec.2) maxSize 50)
      fun h => hlist (chunkFixedSize_eq_nil.mp h)
    constructor
    · intro h
      obtain ⟨hsize, hlen⟩ := hends.mp fun sub hsub => (Nat.add_eq_zero_iff.mp (h sub hsub)).1
      exact ⟨hsize, (Nat.add_eq_zero_iff.mp (h first hfirst)).2, hlen⟩
    · rintro ⟨hsize, hstart, hlen⟩ sub hsub
      rw [hends.mpr ⟨hsize, hlen⟩ sub hsub, hstart]

theorem semanticChunks_ends_iff {maxSize i : ℕ} {secs : List (ℕ × List Char)}
    (hne : ∀ sec ∈ secs, sec.2 ≠ []) :
    (∀ c ∈ semanticChunks documentId maxSize i secs, c.endOffset = 0) ↔
      ∀ sec ∈ secs, maxSize = 0 ∧ sec.1 = 0 ∧ sec.2.length = 1 := by
  exact (forall_semanticChunks (fun _ stop _ => stop = 0) i secs).trans
    (forall₂_congr fun sec hsec => sectionChunks_ends_iff (hne sec hsec))

theorem semanticChunks_eq_nil {maxSize i : ℕ} {secs : List (ℕ × List Char)}
    (hne : ∀ sec ∈ secs, sec.2 ≠ []) :
    semanticChunks documentId maxSize i secs = [] ↔ secs = [] := by
  cases secs with
  | nil => exact iff_of_true rfl rfl
  | cons sec secs =>
      refine iff_of_false (fun h => ?_) (List.cons_ne_nil _ _)
      have hsec : sectionChunks documentId maxSize i sec = [] := (List.append_eq_nil_iff.mp h).1
      rw [sectionChunks] at hsec
      split_ifs at hsec
      rw [List.map_eq_nil_iff, List.zipIdx_eq_nil_iff, chunkFixedSize_eq_nil,
        String.toList_ofList] at hsec
      exact hne sec List.mem_cons_self hsec

theorem map_bodyLines (t : List Char) :
    (bodyLines t).map Line.text = (lines t).dropWhile List.isEmpty := by
  rw [bodyLines, ← map_broken, List.dropWhile_map]
  rfl

theorem sections_eq_nil : sections t = [] ↔ bodyLines t = [] := by
  have hplaced : ∀ secs, placed 0 secs = [] ↔ secs = [] := by
    intro secs
    cases secs <;> simp [placed]
  rw [sections_eq, hplaced, List.map_eq_nil_iff, blocks, headed, groups_eq_nil]

theorem ascii_of_bodyLines (h : bodyLines t = []) : Ascii t := by
  have hempty : ∀ l ∈ broken t, l.text = [] := by
    intro l hl
    have hall := List.dropWhile_eq_nil_iff.mp h l hl
    exact List.isEmpty_iff.mp hall
  rw [← whole_broken t]
  exact (isLines_broken t).forall_whole (by decide) (by decide) hempty

/-- The sections are one character at the beginning when one line is, and the others are empty and
before it. -/
theorem sections_single_iff (hne : bodyLines t ≠ []) :
    (∀ sec ∈ sections t, sec.1 = 0 ∧ sec.2.length = 1) ↔
        ∃ c, (bodyLines t).map Line.text = [[c]] := by
  constructor
  · intro h
    have hblocks : blocks t ≠ [] := fun h => hne (groups_eq_nil.mp h)
    obtain ⟨b, rest, hb⟩ := List.exists_cons_of_ne_nil hblocks
    have hrest : rest = [] := by
      by_contra hrest
      obtain ⟨b', rest, rfl⟩ := List.exists_cons_of_ne_nil hrest
      have hsec := (h _ (mem_sections.mpr ⟨[b], b', rest, hb, rfl, rfl⟩)).1
      simp [startAfter] at hsec
    subst hrest
    have hlen : (rejoined b).length = 1 := (h _ (mem_sections.mpr ⟨[], b, [], hb, rfl, rfl⟩)).2
    have hbody : bodyLines t = b := by rw [← flatten_blocks, hb, List.flatten_singleton]
    rw [hbody] at hne ⊢
    obtain ⟨l, ls, rfl⟩ := List.exists_cons_of_ne_nil hne
    have hl : l.text ≠ [] := head_bodyLines t l (by rw [hbody]; rfl)
    have hls : ls = [] := by
      by_contra hls
      have hpos := List.length_pos_iff.mpr hl
      rw [rejoined_cons hls, List.length_append, List.length_append, List.length_singleton] at hlen
      omega
    subst hls
    obtain ⟨c, hc⟩ := List.length_eq_one_iff.mp (rejoined_singleton l ▸ hlen)
    exact ⟨c, by rw [List.map_singleton, hc]⟩
  · rintro ⟨c, hc⟩
    obtain ⟨l, hl, htext⟩ := List.map_eq_singleton_iff.mp hc
    have hsections : sections t = [(0, [c])] := by
      rw [sections_eq, blocks, hl, ← htext]
      simp [headed, groups, add, placed]
    rw [hsections, List.forall_mem_singleton]
    exact ⟨rfl, rfl⟩

theorem chunkSemantic_eq_nil {maxSize : ℕ} :
    chunkSemantic documentId content maxSize = [] ↔ bodyLines content.toList = [] := by
  rw [chunkSemantic, setTotals, List.map_eq_nil_iff,
    semanticChunks_eq_nil fun sec hsec => ne_nil_of_mem_sections hsec, sections_eq_nil]

theorem chunkSemantic_ends_iff {maxSize : ℕ} :
    (∀ c ∈ chunkSemantic documentId content maxSize, c.endOffset = 0) ↔
      bodyLines content.toList = [] ∨
        maxSize = 0 ∧ ∃ c, (bodyLines content.toList).map Line.text = [[c]] := by
  have huntotalled : Untotalled fun c => c.endOffset = 0 := fun _ _ => Iff.rfl
  rw [chunkSemantic, forall_setTotals huntotalled,
    semanticChunks_ends_iff fun sec hsec => ne_nil_of_mem_sections hsec]
  by_cases hnil : bodyLines content.toList = []
  · rw [sections_eq_nil.mpr hnil]
    exact iff_of_true (List.forall_mem_nil _) (.inl hnil)
  · rw [or_iff_right hnil, ← sections_single_iff hnil]
    obtain ⟨sec, hsec⟩ := List.exists_mem_of_ne_nil _ (mt sections_eq_nil.mp hnil)
    exact ⟨fun h => ⟨(h sec hsec).1, fun s hs => (h s hs).2⟩, fun h s hs => ⟨h.1, h.2 s hs⟩⟩

/-! ### The result -/

/-- The documents whose windows are all cut between characters: for want of chunks, or because the
characters are single bytes and, in a build that checks additions, the chunks end at byte 0. -/
def Harmless (checked : Bool) (t : List Char) : ChunkStrategy → Prop
  | .fixedSize chunkSize _ => t = [] ∨ Ascii t ∧ (checked → chunkSize = 0 ∧ t.length = 1)
  | .sentence _ | .paragraph _ => Blank t ∨ Ascii t ∧ checked = false
  | .semantic maxSize => Ascii t ∧ (checked → (lines t).dropWhile List.isEmpty = [] ∨
      maxSize = 0 ∧ ∃ c, (lines t).dropWhile List.isEmpty = [[c]])

theorem never_panics_iff (checked : Bool) (strategy : ChunkStrategy) (documentId content : String)
    (hsize : size content.toList < 2 ^ 63) :
    NeverPanics checked strategy documentId content ↔
      Harmless checked content.toList strategy := by
  rw [neverPanics_iff_chunks hsize]
  cases strategy with
  | fixedSize chunkSize overlap =>
      simp only [chunk, Option.some.injEq, exists_eq_left', chunkFixedSize_eq_nil, Harmless]
      by_cases hnil : content.toList = []
      · exact iff_of_true (.inl hnil) (.inl hnil)
      · rw [chunkFixedSize_ends_iff hnil]
  | sentence maxTokens =>
      simp only [chunk, chunkBySentence, Option.map_eq_some_iff, Harmless]
      constructor
      · rintro ⟨chunks, ⟨sentences, hsentences, rfl⟩, h⟩
        obtain ⟨a, e, ht, he, ha⟩ := sentences_laid hsentences
        exact (grouped_harmless_iff ht he ha).mp h
      · intro h
        have hskips : SkipsBytes content.toList :=
          h.elim skipsBytes_of_blank fun h =>
            skipsBytes_of_one_byte fun c hc _ => utf8Size_of_lt (h.1 c hc)
        obtain ⟨sentences, hsentences⟩ :=
          Option.isSome_iff_exists.mp (splitSentences_isSome_iff.mpr hskips)
        obtain ⟨a, e, ht, he, ha⟩ := sentences_laid hsentences
        exact ⟨_, ⟨_, hsentences, rfl⟩, (grouped_harmless_iff ht he ha).mpr h⟩
  | paragraph maxSize =>
      obtain ⟨a, e, ht, he, ha⟩ := paragraphs_laid content.toList
      simp only [chunk, Option.some.injEq, exists_eq_left']
      exact grouped_harmless_iff ht he ha
  | semantic maxSize =>
      simp only [chunk, Option.some.injEq, exists_eq_left', Harmless]
      rw [chunkSemantic_eq_nil, chunkSemantic_ends_iff, map_bodyLines]
      by_cases hnil : bodyLines content.toList = []
      · have hlines : (lines content.toList).dropWhile List.isEmpty = [] := by
          rw [← map_bodyLines, hnil, List.map_nil]
        exact iff_of_true (.inl hnil) ⟨ascii_of_bodyLines hnil, fun _ => .inl hlines⟩
      · have hlines : (lines content.toList).dropWhile List.isEmpty ≠ [] := by
          rw [← map_bodyLines]
          exact mt List.map_eq_nil_iff.mp hnil
        simp only [hnil, hlines, false_or]

theorem never_panics_iff_sample : NeverPanics false (.paragraph 0) "d" "a b" ↔
    Harmless false "a b".toList (.paragraph 0) :=
  never_panics_iff false (.paragraph 0) "d" "a b" (by decide)

/-- A no-break space is skipped by the byte; and a window is cut inside a letter of two bytes. -/
theorem chunk_panics : ¬ NeverPanics false (.sentence 8) "d" "a.\u00a0b" ∧
    ¬ NeverPanics false (.paragraph 1) "d" "é\n\nb" := by
  constructor
  · rintro ⟨chunks, hchunks, -⟩
    have hpanic : (chunk (.sentence 8) "d" "a.\u00a0b").isNone := by decide
    rw [hchunks] at hpanic
    exact Bool.noConfusion hpanic
  · rintro ⟨chunks, hchunks, hwindows⟩
    obtain rfl := Option.some.inj hchunks
    have hpanic : ∃ c ∈ chunkByParagraph "d" "é\n\nb" 1,
        (getContextWindow false "é\n\nb" c 1).isNone := by decide
    obtain ⟨c, hc, hnone⟩ := hpanic
    have hsome := hwindows c hc 1 (by decide)
    rw [Option.isNone_iff_eq_none.mp hnone] at hsome
    exact Bool.noConfusion hsome

end AresaDb.Rag
