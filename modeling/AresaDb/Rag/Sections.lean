import AresaDb.Lib.Greedy
import AresaDb.Lib.Shown
import AresaDb.Rag.Strategies

/-! # Sections of a text

The empty lines a text begins with are dropped, and from the first other line on each header begins
a block.  The sections are the blocks with their lines joined again, and each is placed where the
one before it and a line feed would end (`sections_eq`); it lacks the first lines and the carriage
returns, so it lies within the text (`le_size_of_mem_sections`). -/

namespace AresaDb.Rag

open Text Greedy

variable {t : List Char} {b : List Line} {done rest : List (List Line)} {l : Line} {ls : List Line}

/-! ### Blocks -/

/-- Lines, in blocks that begin with the headers. -/
def headed (ls : List Line) : List (List Line) := groups (fun _ l => isHeader l.text) ls

/-- The lines from the first one on that is not empty. -/
def bodyLines (t : List Char) : List Line := (broken t).dropWhile (·.text.isEmpty)

/-- The empty lines at the beginning, as they stand in the text. -/
def lead (t : List Char) : List Char := whole ((broken t).takeWhile (·.text.isEmpty))

/-- The lines of the sections. -/
def blocks (t : List Char) : List (List Line) := headed (bodyLines t)

theorem flatten_blocks (t : List Char) : (blocks t).flatten = bodyLines t := flatten_groups _ _

theorem text_eq (t : List Char) : lead t ++ (blocks t).flatMap whole = t := by
  rw [← whole_flatten, flatten_blocks, lead, ← whole_append, bodyLines,
    List.takeWhile_append_dropWhile, whole_broken]

theorem ne_nil_of_mem_blocks (h : b ∈ blocks t) : b ≠ [] := ne_nil_of_mem h

/-- The lines of a block, and those of the blocks before it, which are all broken off. -/
theorem isLines_block (h : blocks t = done ++ b :: rest) :
    (∀ d ∈ done, ∀ l ∈ d, l.Ended) ∧ IsLines b := by
  have hbroken := isLines_broken t
  rw [← List.takeWhile_append_dropWhile (p := fun l : Line => l.text.isEmpty) (l := broken t)]
    at hbroken
  have hbody : IsLines (bodyLines t) := hbroken.append.2
  rw [← flatten_blocks, h, List.flatten_append, List.flatten_cons] at hbody
  have hb : b ≠ [] := ne_nil_of_mem_blocks (h ▸ List.mem_append_right done List.mem_cons_self)
  have hdone := hbody.ended (List.append_ne_nil_of_left_ne_nil hb _)
  exact ⟨fun d hd l hl => hdone l (List.mem_flatten.mpr ⟨d, hd, hl⟩), hbody.append.2.append.1⟩

theorem ne_nil_of_isHeader {line : List Char} (h : isHeader line) : line ≠ [] := by
  rintro rfl
  exact absurd h (by decide)

theorem head_bodyLines (t : List Char) : ∀ l ∈ (bodyLines t).head?, l.text ≠ [] := by
  intro l hl
  have hfirst := List.head?_dropWhile_not (fun l : Line => l.text.isEmpty) (broken t)
  rw [← bodyLines, Option.mem_def.mp hl] at hfirst
  simpa using hfirst

/-- No block is joined to an empty section, for none begins with an empty line. -/
theorem rejoined_ne_nil (hhead : ∀ l ∈ ls.head?, l.text ≠ []) (h : b ∈ headed ls) :
    rejoined b ≠ [] := by
  obtain ⟨l, rest, rfl, hbegin⟩ := exists_head h
  have hl : l.text ≠ [] := by
    obtain hfirst | ⟨g, hheader⟩ := hbegin
    · exact hhead l hfirst
    · exact ne_nil_of_isHeader hheader
  by_cases hnil : rest = []
  · rwa [hnil, rejoined_singleton]
  · rw [rejoined_cons hnil]
    simp [hl]

/-! ### The loop -/

/-- Sections one behind the other, each behind a line feed but the first. -/
def placed : ℕ → List (List Char) → List (ℕ × List Char)
  | _, [] => []
  | start, sec :: secs => (start, sec) :: placed (start + (size sec + 1)) secs

/-- Where a section begins behind others. -/
def startAfter (secs : List (List Char)) : ℕ := (secs.map fun sec => size sec + 1).sum

theorem startAfter_concat (secs : List (List Char)) (sec : List Char) :
    startAfter (secs ++ [sec]) = startAfter secs + (size sec + 1) := by
  simp [startAfter]

theorem placed_concat (start : ℕ) (secs : List (List Char)) (sec : List Char) :
    placed start (secs ++ [sec]) = placed start secs ++ [(start + startAfter secs, sec)] := by
  induction secs generalizing start with
  | nil => rfl
  | cons s secs ih =>
      have hstart : startAfter (s :: secs) = size s + 1 + startAfter secs := List.sum_cons
      rw [List.cons_append, placed, ih, placed, hstart, Nat.add_assoc start, List.cons_append]

/-- The loop has closed all blocks but the last one. -/
structure Opened (gs : List (List Line)) (s : Sectioning) : Prop where
  exists_last : ∃ closed g, gs = closed ++ [g] ∧ s.currentSection = rejoined g ∧
    s.sections = placed 0 (closed.map rejoined) ∧ s.currentStart = startAfter (closed.map rejoined)

theorem sectionStep_of_empty {s : Sectioning} (hs : s.currentSection = []) (line : List Char) :
    sectionStep s line = { s with currentSection := line } := by
  rw [sectionStep, hs]
  simp

theorem foldl_sectionStep (hne : ls ≠ []) (hhead : ∀ l ∈ ls.head?, l.text ≠ []) :
    Opened (headed ls)
      ((ls.map Line.text).foldl sectionStep ⟨[], [], 0⟩) := by
  induction ls using List.reverseRecOn with
  | nil => exact absurd rfl hne
  | append_singleton ls l ih =>
      rw [List.map_append, List.foldl_append, List.map_singleton, List.foldl_cons, List.foldl_nil,
        headed, groups_concat]
      by_cases hnil : ls = []
      · subst hnil
        rw [List.map_nil, List.foldl_nil, sectionStep_of_empty rfl]
        exact ⟨[], [l], rfl, (rejoined_singleton l).symm, rfl, rfl⟩
      have hfront : ∀ m ∈ ls.head?, m.text ≠ [] := fun m hm => hhead m (by
        rw [List.head?_append, Option.mem_def.mp hm, Option.some_or]
        exact Option.mem_some_self m)
      obtain ⟨closed, g, hg, hcurrent, hsections, hstart⟩ := (ih hnil hfront).exists_last
      have hgroup : g ∈ headed ls := hg ▸ List.mem_append_right closed (List.mem_singleton.mpr rfl)
      have hempty : (rejoined g).isEmpty = false := by
        rw [Bool.eq_false_iff]
        exact fun h => rejoined_ne_nil hfront hgroup (List.isEmpty_iff.mp h)
      rw [← headed, hg, add_concat, sectionStep, hcurrent, hempty, Bool.not_false, Bool.and_true,
        if_neg Bool.false_ne_true]
      by_cases hheader : isHeader l.text
      · rw [if_pos hheader, if_pos hheader]
        refine ⟨closed ++ [g], [l], by simp, (rejoined_singleton l).symm, ?_, ?_⟩
        · rw [List.map_append, List.map_singleton, placed_concat, hsections, hstart, Nat.zero_add]
        · rw [List.map_append, List.map_singleton, startAfter_concat, hstart]
      · rw [if_neg hheader, if_neg hheader]
        refine ⟨closed, g ++ [l], rfl, ?_, hsections, hstart⟩
        rw [rejoined_concat (ne_nil_of_mem hgroup), List.append_assoc]

theorem foldl_sectionStep_empty (h : ∀ l ∈ ls, l.text.isEmpty) :
    (ls.map Line.text).foldl sectionStep ⟨[], [], 0⟩ = ⟨[], [], 0⟩ := by
  induction ls with
  | nil => rfl
  | cons l ls ih =>
      obtain ⟨hl, hls⟩ := List.forall_mem_cons.mp h
      rw [List.map_cons, List.foldl_cons, sectionStep_of_empty rfl, List.isEmpty_iff.mp hl]
      exact ih hls

/-- The sections are the blocks, each joined and placed behind the one before it. -/
theorem sections_eq (t : List Char) : sections t = placed 0 ((blocks t).map rejoined) := by
  have hfold : (lines t).foldl sectionStep ⟨[], [], 0⟩ =
      ((bodyLines t).map Line.text).foldl sectionStep ⟨[], [], 0⟩ := by
    have hlead : ∀ l ∈ (broken t).takeWhile (·.text.isEmpty), l.text.isEmpty :=
      fun l hl => List.mem_takeWhile_imp (p := fun l : Line => l.text.isEmpty) hl
    rw [← map_broken, ← List.takeWhile_append_dropWhile (p := fun l : Line => l.text.isEmpty)
      (l := broken t), List.map_append, List.foldl_append, foldl_sectionStep_empty hlead, bodyLines]
  rw [sections, hfold]
  by_cases hnil : bodyLines t = []
  · rw [blocks, hnil]
    rfl
  obtain ⟨closed, g, hg, hcurrent, hsections, hstart⟩ :=
    (foldl_sectionStep hnil (head_bodyLines t)).exists_last
  have hgroup : g ∈ headed (bodyLines t) :=
    hg ▸ List.mem_append_right closed (List.mem_singleton.mpr rfl)
  have hempty : ¬ (rejoined g).isEmpty := fun h =>
    rejoined_ne_nil (head_bodyLines t) hgroup (List.isEmpty_iff.mp h)
  rw [hcurrent, if_neg hempty, hsections, hstart, blocks, hg, List.map_append, List.map_singleton,
    placed_concat, Nat.zero_add]

/-! ### Places -/

/-- Blocks with a line feed behind each take no more than in the text. -/
theorem startAfter_le (h : blocks t = done ++ b :: rest) :
    startAfter (done.map rejoined) ≤ size (done.flatMap whole) := by
  have hne : ∀ d ∈ done, d ≠ [] := fun d hd =>
    ne_nil_of_mem_blocks (h ▸ List.mem_append_left _ hd)
  have hended := (isLines_block h).1
  clear h
  induction done with
  | nil => exact le_rfl
  | cons d ds ih =>
      obtain ⟨hd, hds⟩ := List.forall_mem_cons.mp hne
      obtain ⟨hdl, hdsl⟩ := List.forall_mem_cons.mp hended
      have hblock := size_le_of_sublist (rejoined_append_sublist hd hdl)
      have hrest := ih hds hdsl
      have hstart : startAfter ((d :: ds).map rejoined) =
          size (rejoined d) + 1 + startAfter (ds.map rejoined) := List.sum_cons
      have hfeed : size ['\n'] = 1 := rfl
      rw [size_append, hfeed] at hblock
      rw [hstart, List.flatMap_cons, size_append]
      omega

theorem mem_placed {start p : ℕ} {sec : List Char} {secs : List (List Char)} :
    (p, sec) ∈ placed start secs ↔
      ∃ before after, secs = before ++ sec :: after ∧ p = start + startAfter before := by
  induction secs generalizing start with
  | nil => simp [placed]
  | cons s secs ih =>
      rw [placed, List.mem_cons, ih]
      constructor
      · rintro (heq | ⟨before, after, rfl, rfl⟩)
        · obtain ⟨rfl, rfl⟩ := Prod.mk.inj heq
          exact ⟨[], secs, rfl, rfl⟩
        · exact ⟨s :: before, after, rfl, by simp [startAfter, Nat.add_assoc]⟩
      · rintro ⟨before, after, heq, rfl⟩
        cases before with
        | nil =>
            obtain ⟨rfl, -⟩ := List.cons.inj heq
            exact .inl rfl
        | cons x before =>
            obtain ⟨rfl, hrest⟩ := List.cons.inj heq
            exact .inr ⟨before, after, hrest, by simp [startAfter, Nat.add_assoc]⟩

/-- A section is a block, placed behind those before it. -/
theorem mem_sections {p : ℕ} {sec : List Char} :
    (p, sec) ∈ sections t ↔ ∃ done b rest, blocks t = done ++ b :: rest ∧ sec = rejoined b ∧
      p = startAfter (done.map rejoined) := by
  rw [sections_eq, mem_placed]
  constructor
  · rintro ⟨before, after, heq, rfl⟩
    obtain ⟨done, tail, hblocks, rfl, htail⟩ := List.map_eq_append_iff.mp heq
    obtain ⟨b, rest, rfl, rfl, rfl⟩ := List.map_eq_cons_iff.mp htail
    exact ⟨done, b, rest, hblocks, rfl, Nat.zero_add _⟩
  · rintro ⟨done, b, rest, hblocks, rfl, rfl⟩
    exact ⟨done.map rejoined, rest.map rejoined, by rw [hblocks]; simp, (Nat.zero_add _).symm⟩

/-- A section ends within the text. -/
theorem le_size_of_mem_sections {p : ℕ} {sec : List Char} (h : (p, sec) ∈ sections t) :
    p + size sec ≤ size t := by
  obtain ⟨done, b, rest, hblocks, rfl, rfl⟩ := mem_sections.mp h
  have hbefore := startAfter_le hblocks
  have hblock := size_le_of_sublist (isLines_block hblocks).2.rejoined_sublist
  have hsize := congrArg size (text_eq t)
  rw [hblocks, List.flatMap_append, List.flatMap_cons, size_append, size_append,
    size_append] at hsize
  omega

theorem ne_nil_of_mem_sections {p : ℕ} {sec : List Char} (h : (p, sec) ∈ sections t) :
    sec ≠ [] := by
  obtain ⟨done, b, rest, hblocks, rfl, -⟩ := mem_sections.mp h
  have hmem : b ∈ blocks t := hblocks ▸ List.mem_append_right done List.mem_cons_self
  exact rejoined_ne_nil (head_bodyLines t) hmem

/-! ### Chunks of sections -/

variable {documentId : String} {maxSize : ℕ}

/-- What is said of places and contents is said of a section itself, or of its windows behind the
place where it begins. -/
theorem forall_sectionChunks (Q : ℕ → ℕ → String → Prop) (maxSize i : ℕ) (sec : ℕ × List Char) :
    (∀ c ∈ sectionChunks documentId maxSize i sec, Q c.startOffset c.endOffset c.content) ↔
      if size sec.2 ≤ maxSize then Q sec.1 (sec.1 + size sec.2) (.ofList (trim sec.2))
      else ∀ sub ∈ chunkFixedSize (documentId ++ "_section") (.ofList sec.2) maxSize 50,
        Q (sub.startOffset + sec.1) (sub.endOffset + sec.1) sub.content := by
  rw [sectionChunks]
  split_ifs with hsmall
  · rw [List.forall_mem_singleton]
    rfl
  · rw [List.forall_mem_map]
    constructor
    · intro h sub hsub
      obtain ⟨k, hk, rfl⟩ := List.getElem_of_mem hsub
      exact h (_, k) (List.mk_mem_zipIdx_iff_getElem?.mpr (List.getElem?_eq_getElem hk))
    · rintro h ⟨sub, k⟩ hsub
      exact h sub (List.fst_mem_of_mem_zipIdx hsub)

theorem forall_semanticChunks (Q : ℕ → ℕ → String → Prop) (i : ℕ) (secs : List (ℕ × List Char)) :
    (∀ c ∈ semanticChunks documentId maxSize i secs, Q c.startOffset c.endOffset c.content) ↔
      ∀ sec ∈ secs, ∀ c ∈ sectionChunks documentId maxSize 0 sec,
        Q c.startOffset c.endOffset c.content := by
  induction secs generalizing i with
  | nil => exact iff_of_true (List.forall_mem_nil _) (List.forall_mem_nil _)
  | cons sec secs ih =>
      rw [semanticChunks, List.forall_mem_append, List.forall_mem_cons, ih, forall_sectionChunks Q,
        forall_sectionChunks Q]

end AresaDb.Rag
