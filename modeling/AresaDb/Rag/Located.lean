import AresaDb.Rag.Places

/-! # Chunks at their places

The places of a chunk are those it would have if the text were what the strategy puts together.  So
they locate the chunk only as far as the text is no longer than that, up to the last visible
character (`offsets_locate_iff`): a second group of sentences or paragraphs, in front of which the
text has white space that no group has, is never located (`not_shows_second`).

The chunks are in order in any case (`chunk_inOrder`). -/

namespace AresaDb.Rag

open Text Greedy

variable {documentId content : String} {sep a e t : List Char} {full : List Char → List Char → Bool}
  {pieces g g' rest raws : List (List Char)} {c : DocumentChunk} {chunks : List DocumentChunk}
  {maxSize chunkSize overlap i : ℕ}

/-! ### Order -/

/-- No chunk starts before one in front of it. -/
def InOrder (chunks : List DocumentChunk) : Prop :=
  chunks.Pairwise fun c d => c.startOffset ≤ d.startOffset

theorem inOrder_setTotals : InOrder (setTotals chunks) ↔ InOrder chunks := by
  rw [InOrder, setTotals, List.pairwise_map]
  rfl

theorem groupChunks_inOrder (documentId : String) (i start : ℕ) (texts : List (List Char)) :
    InOrder (groupChunks documentId i start texts) := by
  induction texts generalizing i start with
  | nil => exact .nil
  | cons u texts ih =>
      refine .cons (fun c hc => ?_) (ih _ _)
      obtain ⟨before, v, after, -, rfl⟩ := mem_groupChunks.mp hc
      show start ≤ start + size u + size before.flatten
      omega

theorem le_of_mem_fixedChunks {chars : List Char} {step start : ℕ} {hstep : 0 < step}
    (h : c ∈ fixedChunks documentId chars chunkSize step hstep i start) :
    size (chars.take start) ≤ c.startOffset := by
  induction i, start using fixedChunks.induct chars chunkSize step hstep with
  | case1 i start hlt ih =>
      rw [fixedChunks, if_pos hlt] at h
      obtain rfl | h := List.mem_cons.mp h
      · exact le_rfl
      · split_ifs at h
        · exact absurd h List.not_mem_nil
        · exact (size_le_of_sublist (List.take_prefix_take_left
            (Nat.le_add_right _ _)).sublist).trans (ih h)
  | case2 i start hlt =>
      rw [fixedChunks, if_neg hlt] at h
      exact absurd h List.not_mem_nil

theorem fixedChunks_inOrder {chars : List Char} {step start : ℕ} {hstep : 0 < step} :
    InOrder (fixedChunks documentId chars chunkSize step hstep i start) := by
  induction i, start using fixedChunks.induct chars chunkSize step hstep with
  | case1 i start hlt ih =>
      rw [fixedChunks, if_pos hlt]
      split_ifs with hend
      · exact List.pairwise_singleton _ _
      · refine .cons (fun c hc => ?_) ih
        exact (size_le_of_sublist (List.take_prefix_take_left (Nat.le_add_right _ _)).sublist).trans
          (le_of_mem_fixedChunks hc)
  | case2 i start hlt =>
      rw [fixedChunks, if_neg hlt]
      exact .nil

theorem chunkFixedSize_inOrder :
    InOrder (chunkFixedSize documentId content chunkSize overlap) := by
  rw [chunkFixedSize]
  split_ifs
  · exact .nil
  · exact inOrder_setTotals.mpr fixedChunks_inOrder

/-- The chunks of a section start within it. -/
theorem sectionChunks_starts {sec : ℕ × List Char} :
    ∀ c ∈ sectionChunks documentId maxSize i sec,
      sec.1 ≤ c.startOffset ∧ c.startOffset ≤ sec.1 + size sec.2 := by
  refine (forall_sectionChunks
    (fun start _ _ => sec.1 ≤ start ∧ start ≤ sec.1 + size sec.2) maxSize i sec).mpr ?_
  split_ifs
  · exact ⟨le_rfl, Nat.le_add_right _ _⟩
  · intro sub hsub
    obtain ⟨hle, hend⟩ := chunkFixedSize_within sub hsub
    rw [String.toList_ofList] at hend
    exact ⟨Nat.le_add_left _ _, by omega⟩

theorem sectionChunks_inOrder {sec : ℕ × List Char} :
    InOrder (sectionChunks documentId maxSize i sec) := by
  rw [sectionChunks]
  split_ifs
  · exact List.pairwise_singleton _ _
  · have hsubs : InOrder (chunkFixedSize (documentId ++ "_section") (.ofList sec.2) maxSize 50) :=
      chunkFixedSize_inOrder
    rw [InOrder, ← List.zipIdx_map_fst 0 (chunkFixedSize _ _ _ _), List.pairwise_map] at hsubs
    rw [InOrder, List.pairwise_map]
    exact hsubs.imp fun h => Nat.add_le_add_right h _

theorem semanticChunks_inOrder (i start : ℕ) (secs : List (List Char)) :
    InOrder (semanticChunks documentId maxSize i (placed start secs)) ∧
      ∀ c ∈ semanticChunks documentId maxSize i (placed start secs), start ≤ c.startOffset := by
  induction secs generalizing i start with
  | nil => exact ⟨.nil, List.forall_mem_nil _⟩
  | cons sec secs ih =>
      rw [placed, semanticChunks]
      have hsec : ∀ c ∈ sectionChunks documentId maxSize i (start, sec),
          start ≤ c.startOffset ∧ c.startOffset ≤ start + size sec := sectionChunks_starts
      obtain ⟨hrest, hstarts⟩ := ih (i + (sectionChunks documentId maxSize i (start, sec)).length)
        (start + (size sec + 1))
      refine ⟨List.pairwise_append.mpr ⟨sectionChunks_inOrder, hrest, fun c hc d hd => ?_⟩,
        List.forall_mem_append.mpr ⟨fun c hc => (hsec c hc).1, fun d hd => ?_⟩⟩
      · have hc := (hsec c hc).2
        have hd := hstarts d hd
        omega
      · have hd := hstarts d hd
        omega

theorem groupPieces_inOrder (hpieces : ∀ p ∈ pieces, Piece p) :
    InOrder (groupPieces documentId sep full pieces) := by
  rw [groupPieces_eq hpieces]
  exact inOrder_setTotals.mpr (groupChunks_inOrder _ _ _ _)

theorem chunk_inOrder {strategy : ChunkStrategy}
    (h : chunk strategy documentId content = some chunks) : InOrder chunks := by
  cases strategy with
  | fixedSize chunkSize overlap =>
      obtain rfl := Option.some.inj h
      exact chunkFixedSize_inOrder
  | sentence maxTokens =>
      obtain ⟨sentences, hsentences, rfl⟩ := Option.map_eq_some_iff.mp h
      obtain ⟨a, e, -, -, ha⟩ := sentences_laid hsentences
      exact groupPieces_inOrder ha.piece
  | paragraph maxSize =>
      obtain rfl := Option.some.inj h
      obtain ⟨a, e, -, -, ha⟩ := paragraphs_laid content.toList
      exact groupPieces_inOrder ha.piece
  | semantic maxSize =>
      obtain rfl := Option.some.inj h
      rw [chunkSemantic, inOrder_setTotals, sections_eq]
      exact (semanticChunks_inOrder 0 0 _).1

/-! ### Groups -/

/-- There is one group at most, and the text has no more bytes before and between the pieces than
the separators have. -/
def Tight (sep : List Char) (full : List Char → List Char → Bool) (pieces : List (List Char))
    (t : List Char) : Prop :=
  pieces = [] ∨ Fits (fun g => full (sep.intercalate g)) pieces ∧
    size (sep.intercalate pieces) = size (trimEnd t)

/-- The first joined text is shown if it is as long as the text of its pieces. -/
theorem shows_first_iff (hne : sep ≠ []) (hsep : Blank sep) (ha : Laid (size sep) 0 g a)
    (hg : g ≠ []) :
    Shows (a ++ e) 0 (size (sep.intercalate g)) (trim (sep.intercalate g)) ↔
      size (sep.intercalate g) = size a := by
  have hpiece : Piece (sep.intercalate g) := piece_intercalate hg ha.piece
  have hpos : 0 < size sep := Nat.pos_of_ne_zero fun h => hne (size_eq_zero.mp h)
  have hwords : words a = words (sep.intercalate g) := by
    rw [ha.words_eq hpos, words_intercalate hne hsep]
  have hle := ha.size_join_le hg
  rw [hpiece.2]
  refine (shows_iff_reaches (x := []) (z := e) hpiece.2 hwords (Nat.zero_le _) (Nat.zero_le _)
    (Nat.zero_le _) (by rw [List.nil_append]; omega)).trans ?_
  rw [List.nil_append, List.nil_append, ha.trimEnd_eq]
  constructor
  · rintro ⟨-, hreaches⟩
    omega
  · intro h
    exact ⟨⟨⟨[], a ++ e, rfl, rfl⟩, ⟨a, e, rfl, h.symm⟩⟩, h.ge⟩

/-- A second joined text is not shown, if the first one is: it would have to begin where the white
space before it does. -/
theorem not_shows_second (hne : sep ≠ []) (hsep : Blank sep)
    (ha : Laid (size sep) 0 (g ++ (g' ++ rest)) a) (hg : g ≠ []) (hg' : g' ≠ [])
    (hfirst : Shows (a ++ e) 0 (size (sep.intercalate g)) (trim (sep.intercalate g))) :
    ¬ Shows (a ++ e) (size (sep.intercalate g))
      (size (sep.intercalate g) + size (sep.intercalate g')) (trim (sep.intercalate g')) := by
  intro hsecond
  have hpos : 0 < size sep := Nat.pos_of_ne_zero fun h => hne (size_eq_zero.mp h)
  obtain ⟨b, d, rfl, hb, hd⟩ := ha.append hg
  obtain ⟨b', d', rfl, hb', -⟩ := hd.append hg'
  rw [List.append_assoc] at hfirst
  have hsize := (shows_first_iff hne hsep hb hg).mp hfirst
  have hjoin := hb'.size_join_le hg'
  have hpiece : Piece (sep.intercalate g') := piece_intercalate hg' hb'.piece
  have hwords : words b' = words (sep.intercalate g') := by
    rw [hb'.words_eq hpos, words_intercalate hne hsep]
  have htext : b ++ (b' ++ d') ++ e = b ++ (b' ++ (d' ++ e)) := by simp only [List.append_assoc]
  rw [hsize, hpiece.2, htext] at hsecond
  have hreaches := ((shows_iff_reaches hpiece.2 hwords (size_trimEnd b) le_rfl
    (Nat.le_add_right _ _) (by rw [size_append]; omega)).mp hsecond).2
  have hblank : ¬ Blank b' := by
    intro hblank
    rw [words_of_blank hblank] at hwords
    exact hpiece.not_blank (visible_eq_nil.mp (by rw [← flatten_words, ← hwords, List.flatten_nil]))
  rw [trimEnd_append hblank, hb'.trimEnd_eq, size_append] at hreaches
  omega

theorem groupPieces_shows_iff (hne : sep ≠ []) (hsep : Blank sep)
    (ha : Laid (size sep) 0 pieces a) (he : Blank e) :
    (∀ c ∈ groupPieces documentId sep full pieces,
      Shows (a ++ e) c.startOffset c.endOffset c.content.toList) ↔
          Tight sep full pieces (a ++ e) := by
  have huntotalled : Untotalled fun c =>
      Shows (a ++ e) c.startOffset c.endOffset c.content.toList := fun _ _ => Iff.rfl
  have hchunk : ∀ i start u, Shows (a ++ e) (chunkAt documentId i start u).startOffset
      (chunkAt documentId i start u).endOffset (chunkAt documentId i start u).content.toList ↔
      Shows (a ++ e) start (start + size u) (trim u) := by
    intro i start u
    rw [chunkAt, String.toList_ofList]
  rw [forall_groupPieces huntotalled ha.piece]
  simp only [hchunk]
  have hflatten : (grouped sep full pieces).flatten = pieces := flatten_groups _ _
  have hnonempty : ∀ g ∈ grouped sep full pieces, g ≠ [] := fun g hg => ne_nil_of_mem hg
  rw [Tight, joined, trimEnd_append_blank he, ha.trimEnd_eq]
  by_cases hnil : pieces = []
  · subst hnil
    exact iff_of_true (fun before u after heq => absurd heq.symm (by simp [grouped, groups_nil]))
      (.inl rfl)
  rw [or_iff_right hnil, ← groups_eq_singleton_iff hnil, ← grouped]
  cases hgroups : grouped sep full pieces with
  | nil => exact absurd (groups_eq_nil.mp hgroups) hnil
  | cons g gs =>
      rw [hgroups] at hflatten hnonempty
      obtain ⟨hg, hgs⟩ := List.forall_mem_cons.mp hnonempty
      cases gs with
      | nil =>
          obtain rfl : g = pieces := by rwa [List.flatten_singleton] at hflatten
          rw [and_iff_right rfl, ← shows_first_iff hne hsep ha hg (e := e)]
          constructor
          · intro h
            have hfirst := h [] (sep.intercalate g) [] rfl
            rwa [List.flatten_nil, size_nil, Nat.zero_add] at hfirst
          · intro h before u after heq
            obtain ⟨rfl, hcons⟩ | ⟨-, hcons⟩ := List.singleton_eq_append_iff.mp heq
            · obtain ⟨rfl, -⟩ := List.cons.inj hcons
              rwa [List.flatten_nil, size_nil, Nat.zero_add]
            · exact absurd hcons (List.cons_ne_nil _ _)
      | cons g' gs =>
          refine iff_of_false (fun h => ?_) fun h => by simp at h
          rw [List.flatten_cons, List.flatten_cons] at hflatten
          rw [← hflatten] at ha
          have hfirst := h [] (sep.intercalate g) _ rfl
          have hsecond := h [sep.intercalate g] (sep.intercalate g') _ rfl
          rw [List.flatten_nil, size_nil, Nat.zero_add] at hfirst
          rw [List.flatten_singleton] at hsecond
          exact not_shows_second hne hsep ha hg (List.forall_mem_cons.mp hgs).1 hfirst hsecond

/-! ### Windows of a fixed size -/

/-- No window begins or ends with white space. -/
def TrimmedWindows (t : List Char) (chunkSize overlap : ℕ) : Prop :=
  ∀ i < Windows.count t.length chunkSize (max (chunkSize - overlap) 1),
    trim (window t chunkSize (i * max (chunkSize - overlap) 1)) =
      window t chunkSize (i * max (chunkSize - overlap) 1)

theorem fixedChunk_endOffset (documentId : String) (chars : List Char) (chunkSize i start : ℕ) :
    (fixedChunk documentId chars chunkSize i start).endOffset =
      size (chars.take (start + chunkSize)) := congrArg size (take_min chars _)

/-- What is said of places and contents is said of the windows. -/
theorem forall_chunkFixedSize (Q : ℕ → ℕ → List Char → Prop) (hsize : 1 ≤ chunkSize) :
    (∀ c ∈ chunkFixedSize documentId content chunkSize overlap,
      Q c.startOffset c.endOffset c.content.toList) ↔
    ∀ i < Windows.count content.toList.length chunkSize (max (chunkSize - overlap) 1),
      Q (size (content.toList.take (i * max (chunkSize - overlap) 1)))
        (size (content.toList.take (i * max (chunkSize - overlap) 1 + chunkSize)))
        (window content.toList chunkSize (i * max (chunkSize - overlap) 1)) := by
  have huntotalled : Untotalled fun c => Q c.startOffset c.endOffset c.content.toList :=
    fun _ _ => Iff.rfl
  rw [chunkFixedSize_eq documentId content chunkSize overlap hsize, forall_setTotals huntotalled,
    List.forall_mem_map]
  simp only [List.mem_range]
  refine forall₂_congr fun i _ => ?_
  rw [fixedChunk_content, fixedChunk_endOffset, ← window]
  rfl

/-- Windows of no size stand before each character. -/
theorem forall_fixedChunks_zero (Q : ℕ → ℕ → List Char → Prop) {chars : List Char} {step start : ℕ}
    {hstep : 0 < step} (hone : step = 1) :
    (∀ c ∈ fixedChunks documentId chars 0 step hstep i start,
      Q c.startOffset c.endOffset c.content.toList) ↔
    ∀ j, start ≤ j → j < chars.length → Q (size (chars.take j)) (size (chars.take j)) [] := by
  subst hone
  induction i, start using fixedChunks.induct chars 0 1 hstep with
  | case1 i start hlt ih =>
      have hfirst : Q (fixedChunk documentId chars 0 i start).startOffset
          (fixedChunk documentId chars 0 i start).endOffset
          (fixedChunk documentId chars 0 i start).content.toList ↔
          Q (size (chars.take start)) (size (chars.take start)) [] := by
        rw [fixedChunk_content, fixedChunk_endOffset, List.take_zero]
        rfl
      rw [fixedChunks, if_pos hlt, if_neg (by omega), List.forall_mem_cons, ih, hfirst]
      constructor
      · rintro ⟨hstart, hrest⟩ j hj hlen
        obtain rfl | hj := hj.eq_or_lt
        · exact hstart
        · exact hrest j hj hlen
      · intro h
        exact ⟨h start le_rfl hlt, fun j hj => h j (by omega)⟩
  | case2 i start hlt =>
      rw [fixedChunks, if_neg hlt]
      exact iff_of_true (List.forall_mem_nil _) fun j hj hlen => absurd hlen (by omega)

theorem chunkFixedSize_shows_iff :
    (∀ c ∈ chunkFixedSize documentId content chunkSize overlap,
      Shows content.toList c.startOffset c.endOffset c.content.toList) ↔
    TrimmedWindows content.toList chunkSize overlap := by
  obtain rfl | hpos := Nat.eq_zero_or_pos chunkSize
  · refine iff_of_true (fun c hc => ?_) fun i _ => by rw [window, List.take_zero]; rfl
    obtain ⟨j, place, total, -, rfl⟩ := mem_chunkFixedSize hc
    refine (shows_of_slice (fixedChunk_slice documentId content.toList 0 j place)).mpr ?_
    rw [fixedChunk_content, List.take_zero]
    rfl
  · rw [forall_chunkFixedSize (Shows content.toList) hpos]
    refine forall₂_congr fun i _ => shows_of_slice ?_
    have hslice := slice_window [] content.toList [] chunkSize (i * max (chunkSize - overlap) 1)
    rwa [size_nil, Nat.zero_add, Nat.zero_add, List.nil_append, List.append_nil] at hslice

/-! ### Sections -/

/-- The sections so far begin within the white space behind what they show. -/
def Begins (t : List Char) (done : List (List Line)) : Prop :=
  size (trimEnd (lead t ++ done.flatMap whole)) ≤ startAfter (done.map rejoined)

/-- Up to the last visible character of the block, the text is no longer than the sections. -/
def Reaches (t : List Char) (done : List (List Line)) (b : List Line) : Prop :=
  size (trimEnd (lead t ++ done.flatMap whole ++ whole b)) ≤
    startAfter (done.map rejoined) + size (rejoined b)

theorem blank_lead (t : List Char) : Blank (lead t) := by
  have hlines : IsLines ((broken t).takeWhile (·.text.isEmpty)) := by
    have hbroken := isLines_broken t
    rw [← List.takeWhile_append_dropWhile (p := fun l : Line => l.text.isEmpty) (l := broken t)]
      at hbroken
    exact hbroken.append.1
  refine hlines.forall_whole (by decide) (by decide) fun l hl => ?_
  exact List.isEmpty_iff.mp (List.mem_takeWhile_imp (p := fun l : Line => l.text.isEmpty) hl)

theorem begins_nil (t : List Char) : Begins t [] := by
  have hblank : trimEnd (lead t ++ [].flatMap whole) = [] := by
    rw [List.flatMap_nil, List.append_nil, trimEnd_eq_nil]
    exact blank_lead t
  rw [Begins, hblank]
  exact Nat.zero_le _

theorem Reaches.begins {done : List (List Line)} {b : List Line} (h : Reaches t done b) :
    Begins t (done ++ [b]) := by
  rw [Begins, List.map_append, List.map_singleton, startAfter_concat, List.flatMap_append,
    List.flatMap_singleton, ← List.append_assoc]
  rw [Reaches] at h
  omega

/-- While the blocks are reached, the next one begins where it should. -/
theorem begins_of_reaches
    (h : ∀ done b rest, blocks t = done ++ b :: rest → Begins t done → Reaches t done b)
    {done : List (List Line)} (hdone : done <+: blocks t) : Begins t done := by
  induction done using List.reverseRecOn with
  | nil => exact begins_nil t
  | append_singleton done b ih =>
      obtain ⟨rest, hrest⟩ := hdone
      have hblocks : blocks t = done ++ b :: rest := by rw [← hrest, List.append_assoc,
        List.singleton_append]
      exact (h done b rest hblocks (ih ⟨_, hblocks.symm⟩)).begins

theorem forall_blocks_iff {P Q : List (List Line) → List Line → Prop}
    (hPQ : ∀ done b rest, blocks t = done ++ b :: rest → Begins t done →
      (P done b ↔ Reaches t done b ∧ Q done b)) :
    (∀ done b rest, blocks t = done ++ b :: rest → P done b) ↔
      ∀ done b rest, blocks t = done ++ b :: rest → Reaches t done b ∧ Q done b := by
  constructor
  · intro h done b rest hblocks
    have hbegins : Begins t done := begins_of_reaches (fun done b rest hblocks hbegins =>
      ((hPQ done b rest hblocks hbegins).mp (h done b rest hblocks)).1) ⟨_, hblocks.symm⟩
    exact (hPQ done b rest hblocks hbegins).mp (h done b rest hblocks)
  · intro h done b rest hblocks
    have hbegins : Begins t done := begins_of_reaches (fun done b rest hblocks _ =>
      (h done b rest hblocks).1) ⟨_, hblocks.symm⟩
    exact (hPQ done b rest hblocks hbegins).mpr (h done b rest hblocks)

/-- The chunks of a section are shown where the section begins in white space before it and reaches
its last visible character, if the places are between characters or no window needs to be trimmed.
-/
theorem sectionChunks_shows_iff (documentId : String) (i : ℕ) {x y z sec : List Char} {p : ℕ}
    (hmax : 1 ≤ maxSize)
    (hwords : words sec = words y) (hsub : sec.Sublist y) (hne : sec ≠ [])
    (hbegin : size (trimEnd x) ≤ p) (hp : p ≤ size x) :
    (∀ c ∈ sectionChunks documentId maxSize i (p, sec),
      Shows (x ++ (y ++ z)) c.startOffset c.endOffset c.content.toList) ↔
    size (trimEnd (x ++ y)) ≤ p + size sec ∧
      if size sec ≤ maxSize then
        Boundary p (x ++ (y ++ z)) ∧ Boundary (p + size sec) (x ++ (y ++ z))
      else TrimmedWindows sec maxSize 50 := by
  have hstop : p + size sec ≤ size (x ++ y) := by
    have hle := size_le_of_sublist hsub
    rw [size_append]
    omega
  refine (forall_sectionChunks (fun start stop s => Shows (x ++ (y ++ z)) start stop s.toList)
    maxSize i (p, sec)).trans ?_
  split_ifs with hsmall
  · have htrimmed : words y = words (trim sec) := hwords.symm.trans (words_trim sec).symm
    rw [String.toList_ofList, shows_iff_reaches (trim_idem sec) htrimmed hbegin hp
      (Nat.le_add_right _ _) hstop, and_comm]
  · have hvisible : visible sec = visible y := visible_eq_of_words hwords
    rw [TrimmedWindows, ← shows_windows_iff (z := z) (by omega) (by omega) hne hsub hvisible
      hbegin hp,
      forall_chunkFixedSize (fun start stop s => Shows (x ++ (y ++ z)) (start + p) (stop + p) s)
        hmax,
      String.toList_ofList]
    simp only [Nat.add_comm p]

/-- What is said of the sections is said of the blocks, behind those before them. -/
theorem forall_sections (P : ℕ × List Char → Prop) :
    (∀ sec ∈ sections t, P sec) ↔ ∀ done b rest, blocks t = done ++ b :: rest →
      P (startAfter (done.map rejoined), rejoined b) := by
  constructor
  · intro h done b rest hblocks
    exact h _ (mem_sections.mpr ⟨done, b, rest, hblocks, rfl, rfl⟩)
  · rintro h ⟨p, sec⟩ hsec
    obtain ⟨done, b, rest, hblocks, rfl, rfl⟩ := mem_sections.mp hsec
    exact h done b rest hblocks

/-- The sections lie where they should, and their chunks are between characters and trimmed. -/
def SectionsReach (t : List Char) (maxSize : ℕ) : Prop :=
  ∀ done b rest, blocks t = done ++ b :: rest → Reaches t done b ∧
    if size (rejoined b) ≤ maxSize then
      Boundary (startAfter (done.map rejoined)) t ∧
        Boundary (startAfter (done.map rejoined) + size (rejoined b)) t
    else TrimmedWindows (rejoined b) maxSize 50

theorem semanticChunks_shows_iff (hmax : 1 ≤ maxSize) :
    (∀ c ∈ semanticChunks documentId maxSize i (sections t),
      Shows t c.startOffset c.endOffset c.content.toList) ↔ SectionsReach t maxSize := by
  rw [forall_semanticChunks (fun start stop s => Shows t start stop s.toList), forall_sections]
  refine forall_blocks_iff fun done b rest hblocks hbegins => ?_
  have hmem : b ∈ blocks t := hblocks ▸ List.mem_append_right done List.mem_cons_self
  have hlines := (isLines_block hblocks).2
  have htext : lead t ++ done.flatMap whole ++ (whole b ++ rest.flatMap whole) = t := by
    conv_rhs => rw [← text_eq t, hblocks, List.flatMap_append, List.flatMap_cons]
    rw [List.append_assoc]
  have hplace : startAfter (done.map rejoined) ≤ size (lead t ++ done.flatMap whole) := by
    have hle := startAfter_le hblocks
    rw [size_append]
    omega
  have hshows := sectionChunks_shows_iff documentId 0 (z := rest.flatMap whole) hmax
    hlines.words_rejoined hlines.rejoined_sublist (rejoined_ne_nil (head_bodyLines t) hmem) hbegins
    hplace
  rw [htext] at hshows
  exact hshows

/-- The characters of the sections are at places between characters. -/
def SectionsBetween (t : List Char) : Prop :=
  ∀ done b rest, blocks t = done ++ b :: rest → ∀ j < (rejoined b).length,
    Boundary (startAfter (done.map rejoined) + size ((rejoined b).take j)) t

/-- Windows of no size are shown where they are between characters. -/
theorem semanticChunks_zero_shows_iff :
    (∀ c ∈ semanticChunks documentId 0 i (sections t),
      Shows t c.startOffset c.endOffset c.content.toList) ↔ SectionsBetween t := by
  rw [SectionsBetween, ← forall_sections fun sec =>
      ∀ j < sec.2.length, Boundary (sec.1 + size (sec.2.take j)) t,
    forall_semanticChunks (fun start stop s => Shows t start stop s.toList)]
  refine forall₂_congr fun sec hsec => ?_
  have hne : sec.2 ≠ [] := ne_nil_of_mem_sections hsec
  have hpos : 0 < size sec.2 := Nat.pos_of_ne_zero fun h => hne (size_eq_zero.mp h)
  refine (forall_sectionChunks (fun start stop s => Shows t start stop s.toList) 0 0 sec).trans ?_
  rw [if_neg (by omega), chunkFixedSize, String.toList_ofList,
    if_neg fun h => hne (List.length_eq_zero_iff.mp h)]
  have huntotalled : Untotalled fun sub =>
      Shows t (sub.startOffset + sec.1) (sub.endOffset + sec.1) sub.content.toList :=
        fun _ _ => Iff.rfl
  rw [forall_setTotals huntotalled,
    forall_fixedChunks_zero (fun start stop s => Shows t (start + sec.1) (stop + sec.1) s)
      (by omega)]
  refine forall_congr' fun j => ?_
  rw [imp_iff_right (Nat.zero_le j), shows_nil_iff, Nat.add_comm sec.1]

/-! ### The result -/

/-- The places of the chunks are in the text and in order, and the text there is the content of the
chunk, trimmed and with runs of white space collapsed. -/
structure OffsetsLocate (content : String) (chunks : List DocumentChunk) : Prop where
  within : ∀ c ∈ chunks, Within (size content.toList) c
  shows : ∀ c ∈ chunks, Shows content.toList c.startOffset c.endOffset c.content.toList
  inOrder : InOrder chunks

/-- The documents that are laid out as the strategy lays out the chunks. -/
def LaidOut (t : List Char) : ChunkStrategy → Prop
  | .fixedSize chunkSize overlap => TrimmedWindows t chunkSize overlap
  | .sentence maxTokens => ∀ sentences, splitSentences t = some sentences →
      Tight [' '] (sentencesFull maxTokens) sentences t
  | .paragraph maxSize => Tight ['\n', '\n'] (paragraphsFull maxSize) (paragraphs t) t
  | .semantic maxSize => if maxSize = 0 then SectionsBetween t else SectionsReach t maxSize

theorem shows_chunks_iff (strategy : ChunkStrategy) (documentId content : String) :
    (∀ chunks, chunk strategy documentId content = some chunks →
      ∀ c ∈ chunks, Shows content.toList c.startOffset c.endOffset c.content.toList) ↔
    LaidOut content.toList strategy := by
  cases strategy with
  | fixedSize chunkSize overlap =>
      simp only [chunk, Option.some.injEq, forall_eq', LaidOut]
      exact chunkFixedSize_shows_iff
  | sentence maxTokens =>
      simp only [chunk, chunkBySentence, Option.map_eq_some_iff, LaidOut,
        forall_exists_index, and_imp, forall_apply_eq_imp_iff₂]
      refine forall₂_congr fun sentences hsentences => ?_
      obtain ⟨a, e, heq, he, ha⟩ := sentences_laid hsentences
      rw [heq]
      exact groupPieces_shows_iff (List.cons_ne_nil _ _) (by decide) ha he
  | paragraph maxSize =>
      simp only [chunk, Option.some.injEq, forall_eq', LaidOut, chunkByParagraph]
      obtain ⟨a, e, heq, he, ha⟩ := paragraphs_laid content.toList
      generalize paragraphs content.toList = pieces at ha ⊢
      rw [heq]
      exact groupPieces_shows_iff (List.cons_ne_nil _ _) (by decide) ha he
  | semantic maxSize =>
      have huntotalled : Untotalled fun c =>
          Shows content.toList c.startOffset c.endOffset c.content.toList := fun _ _ => Iff.rfl
      simp only [chunk, Option.some.injEq, forall_eq', LaidOut]
      rw [chunkSemantic, forall_setTotals huntotalled]
      split_ifs with hmax
      · rw [hmax]
        exact semanticChunks_zero_shows_iff
      · exact semanticChunks_shows_iff (Nat.pos_of_ne_zero hmax)

/-- The offsets locate all chunks just when the document is laid out as the strategy has it. -/
theorem offsets_locate_iff (strategy : ChunkStrategy) (documentId content : String) :
    (∀ chunks, chunk strategy documentId content = some chunks → OffsetsLocate content chunks) ↔
      LaidOut content.toList strategy := by
  rw [← shows_chunks_iff strategy documentId content]
  constructor
  · intro h chunks hchunks
    exact (h chunks hchunks).shows
  · intro h chunks hchunks
    exact ⟨chunk_within hchunks, h chunks hchunks, chunk_inOrder hchunks⟩

/-- The blank between two sentences is in neither chunk, and the second is placed a byte too early.
-/
theorem offsets_off_by_blank : ¬ ∀ chunks, chunk (.sentence 0) "d" "a. b." = some chunks →
    OffsetsLocate "a. b." chunks := by
  intro h
  have hchunks : chunk (.sentence 0) "d" "a. b." =
      some (groupPieces "d" [' '] (sentencesFull 0) [['a', '.'], ['b', '.']]) := rfl
  have hplace : ∃ c ∈ groupPieces "d" [' '] (sentencesFull 0) [['a', '.'], ['b', '.']],
      c.startOffset = 2 ∧ c.endOffset = 4 ∧ c.content = "b." := by decide
  obtain ⟨c, hc, hstart, hend, hcontent⟩ := hplace
  obtain ⟨s, hs, hcollapse⟩ := (h _ hchunks).shows c hc
  rw [hstart, hend] at hs
  have hslice : slice 2 4 "a. b.".toList = some [' ', 'b'] := by decide
  rw [← Option.some.inj (hslice.symm.trans hs), hcontent] at hcollapse
  exact absurd hcollapse (by decide)

end AresaDb.Rag
