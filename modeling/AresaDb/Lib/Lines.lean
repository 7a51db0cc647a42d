import AresaDb.Lib.Pieces
import AresaDb.Lib.Segments

/-! # Lines of a text

A line ends at a line feed, and a carriage return before that is not of the line.  The text is its
lines, each with its break (`flatMap_broken`).

Lines that are joined again by line feeds have the words that they have in the text
(`IsLines.words_rejoined`), and all that they lack there is white space
(`IsLines.rejoined_sublist`). -/

namespace Text

/-- A line without the carriage return at its end. -/
def stripReturn (line : List Char) : List Char :=
  if line.getLast? = some '\r' then line.dropLast else line

/-- The lines of a text behind the beginning of a line. -/
def linesFrom : List Char → List Char → List (List Char)
  | line, [] => if line.isEmpty then [] else [line]
  | line, c :: t =>
      if c = '\n' then stripReturn line :: linesFrom [] t else linesFrom (line ++ [c]) t

/-- `t.lines()` -/
def lines (t : List Char) : List (List Char) := linesFrom [] t

/-- A line and what breaks it off. -/
structure Line where
  text : List Char
  ending : List Char

/-- The line and its break, as they stand in the text. -/
def Line.full (l : Line) : List Char := l.text ++ l.ending

def brokenFrom : List Char → List Char → List Line
  | line, [] => if line.isEmpty then [] else [⟨line, []⟩]
  | line, c :: t =>
      if c = '\n' then
        ⟨stripReturn line, if line.getLast? = some '\r' then ['\r', '\n'] else ['\n']⟩ ::
          brokenFrom [] t
      else brokenFrom (line ++ [c]) t

/-- The lines with their breaks. -/
def broken (t : List Char) : List Line := brokenFrom [] t

theorem map_brokenFrom (line t : List Char) :
    (brokenFrom line t).map Line.text = linesFrom line t := by
  induction t generalizing line with
  | nil =>
      rw [brokenFrom, linesFrom]
      split_ifs <;> rfl
  | cons c t ih =>
      rw [brokenFrom, linesFrom]
      split_ifs with hc
      · rw [List.map_cons, ih]
      · rw [List.map_cons, ih]
      · exact ih _

theorem map_broken (t : List Char) : (broken t).map Line.text = lines t := map_brokenFrom [] t

theorem flatMap_brokenFrom (line t : List Char) :
    (brokenFrom line t).flatMap Line.full = line ++ t := by
  induction t generalizing line with
  | nil =>
      rw [brokenFrom]
      split_ifs with h
      · rw [List.isEmpty_iff.mp h]
        rfl
      · simp [Line.full]
  | cons c t ih =>
      rw [brokenFrom]
      split_ifs with hc hr
      · obtain ⟨front, rfl⟩ := List.getLast?_eq_some_iff.mp hr
        rw [List.flatMap_cons, ih, Line.full, stripReturn, if_pos hr, List.dropLast_concat, hc]
        simp
      · rw [List.flatMap_cons, ih, Line.full, stripReturn, if_neg hr, hc]
        simp
      · rw [ih, List.append_assoc, List.singleton_append]

theorem flatMap_broken (t : List Char) : (broken t).flatMap Line.full = t := flatMap_brokenFrom [] t

/-! ### Lines in a row -/

/-- Broken off by a line feed, perhaps with a carriage return before it. -/
def Line.Ended (l : Line) : Prop := l.ending = ['\n'] ∨ l.ending = ['\r', '\n']

/-- Every line is broken off, but perhaps the last. -/
inductive IsLines : List Line → Prop
  | nil : IsLines []
  | last {l : Line} (h : l.ending = []) : IsLines [l]
  | cons {l : Line} {ls : List Line} (h : l.Ended) (hls : IsLines ls) : IsLines (l :: ls)

variable {l : Line} {ls as bs : List Line}

theorem isLines_brokenFrom (line t : List Char) : IsLines (brokenFrom line t) := by
  induction t generalizing line with
  | nil =>
      rw [brokenFrom]
      split_ifs
      · exact .nil
      · exact .last rfl
  | cons c t ih =>
      rw [brokenFrom]
      split_ifs
      · exact .cons (.inr rfl) (ih [])
      · exact .cons (.inl rfl) (ih [])
      · exact ih _

theorem isLines_broken (t : List Char) : IsLines (broken t) := isLines_brokenFrom [] t

theorem IsLines.of_cons (h : IsLines (l :: ls)) :
    l.Ended ∧ IsLines ls ∨ l.ending = [] ∧ ls = [] := by
  cases h with
  | last h => exact .inr ⟨h, rfl⟩
  | cons h hls => exact .inl ⟨h, hls⟩

theorem IsLines.append (h : IsLines (as ++ bs)) : IsLines as ∧ IsLines bs := by
  induction as with
  | nil => exact ⟨.nil, h⟩
  | cons l as ih =>
      obtain ⟨hl, hrest⟩ | ⟨hl, hnil⟩ := IsLines.of_cons h
      · exact ⟨.cons hl (ih hrest).1, (ih hrest).2⟩
      · obtain ⟨rfl, rfl⟩ := List.append_eq_nil_iff.mp hnil
        exact ⟨.last hl, .nil⟩

/-- Lines before others are all broken off. -/
theorem IsLines.ended (h : IsLines (as ++ bs)) (hbs : bs ≠ []) : ∀ l ∈ as, l.Ended := by
  induction as with
  | nil => exact List.forall_mem_nil _
  | cons l as ih =>
      obtain ⟨hl, hrest⟩ | ⟨-, hnil⟩ := IsLines.of_cons h
      · exact List.forall_mem_cons.mpr ⟨hl, ih hrest⟩
      · exact absurd (List.append_eq_nil_iff.mp hnil).2 hbs

theorem Line.Ended.blank (h : l.Ended) : Blank l.ending := by
  obtain h | h := h
  · rw [h]
    decide
  · rw [h]
    decide

theorem Line.Ended.ne_nil (h : l.Ended) : l.ending ≠ [] := by
  obtain h | h := h
  · exact h ▸ List.cons_ne_nil _ _
  · exact h ▸ List.cons_ne_nil _ _

theorem Line.Ended.sublist (h : l.Ended) : ['\n'].Sublist l.ending := by
  obtain h | h := h
  · rw [h]
  · rw [h]
    exact .cons _ (.refl _)

/-! ### Lines joined again -/

/-- The lines joined by line feeds. -/
def rejoined (ls : List Line) : List Char := ['\n'].intercalate (ls.map Line.text)

/-- The lines as they stand in the text. -/
def whole (ls : List Line) : List Char := ls.flatMap Line.full

@[simp] theorem rejoined_nil : rejoined [] = [] := rfl

@[simp] theorem rejoined_singleton (l : Line) : rejoined [l] = l.text := List.intercalate_singleton

theorem rejoined_cons (h : ls ≠ []) (l : Line) :
    rejoined (l :: ls) = l.text ++ (['\n'] ++ rejoined ls) := by
  obtain ⟨m, ls, rfl⟩ := List.exists_cons_of_ne_nil h
  exact (List.intercalate_cons_cons ..).trans (List.append_assoc ..)

theorem rejoined_concat (h : ls ≠ []) (l : Line) :
    rejoined (ls ++ [l]) = rejoined ls ++ (['\n'] ++ l.text) := by
  have hmap : ls.map Line.text ≠ [] := by simpa using h
  rw [rejoined, List.map_append, List.map_singleton,
    Segments.intercalate_append hmap (List.cons_ne_nil _ _), List.intercalate_singleton, rejoined]

@[simp] theorem whole_nil : whole [] = [] := rfl

@[simp] theorem whole_cons (l : Line) (ls : List Line) :
    whole (l :: ls) = l.text ++ (l.ending ++ whole ls) := by
  simp [whole, Line.full]

@[simp] theorem whole_append (as bs : List Line) : whole (as ++ bs) = whole as ++ whole bs :=
  List.flatMap_append

theorem whole_flatten (gs : List (List Line)) : whole gs.flatten = gs.flatMap whole := by
  induction gs with
  | nil => rfl
  | cons g gs ih => rw [List.flatten_cons, whole_append, ih, List.flatMap_cons]

theorem whole_broken (t : List Char) : whole (broken t) = t := flatMap_broken t

/-- Empty lines have nothing but their breaks. -/
theorem IsLines.forall_whole {P : Char → Prop} (hreturn : P '\r') (hfeed : P '\n') (h : IsLines ls)
    (hempty : ∀ l ∈ ls, l.text = []) : ∀ c ∈ whole ls, P c := by
  induction h with
  | nil => exact List.forall_mem_nil _
  | @last l h =>
      rw [whole_cons, h, hempty l List.mem_cons_self]
      exact List.forall_mem_nil _
  | @cons l ls h hls ih =>
      obtain ⟨hl, hrest⟩ := List.forall_mem_cons.mp hempty
      rw [whole_cons, hl, List.nil_append, List.forall_mem_append]
      refine ⟨?_, ih hrest⟩
      obtain h | h := h
      · rw [h, List.forall_mem_singleton]
        exact hfeed
      · rw [h, List.forall_mem_cons, List.forall_mem_singleton]
        exact ⟨hreturn, hfeed⟩

theorem IsLines.rejoined_sublist (h : IsLines ls) : (rejoined ls).Sublist (whole ls) := by
  induction h with
  | nil => exact .slnil
  | @last l h => simp
  | @cons l ls h hls ih =>
      rw [whole_cons]
      by_cases hnil : ls = []
      · subst hnil
        rw [rejoined_singleton]
        exact List.sublist_append_left _ _
      · rw [rejoined_cons hnil]
        exact (List.Sublist.refl _).append (h.sublist.append ih)

/-- With a line feed behind them, lines that are broken off are still no more than in the text. -/
theorem rejoined_append_sublist (hne : ls ≠ []) (h : ∀ l ∈ ls, l.Ended) :
    (rejoined ls ++ ['\n']).Sublist (whole ls) := by
  induction ls with
  | nil => exact absurd rfl hne
  | cons l ls ih =>
      obtain ⟨hl, hls⟩ := List.forall_mem_cons.mp h
      rw [whole_cons]
      by_cases hnil : ls = []
      · subst hnil
        rw [rejoined_singleton, whole_nil, List.append_nil]
        exact (List.Sublist.refl _).append hl.sublist
      · rw [rejoined_cons hnil, List.append_assoc, List.append_assoc]
        exact (List.Sublist.refl _).append (hl.sublist.append (ih hnil hls))

/-- Line feeds keep the words apart as the breaks do. -/
theorem IsLines.words_rejoined (h : IsLines ls) : words (rejoined ls) = words (whole ls) := by
  induction h with
  | nil => rfl
  | @last l h => simp [h]
  | @cons l ls h hls ih =>
      rw [whole_cons, words_gap h.ne_nil h.blank, ← ih]
      by_cases hnil : ls = []
      · subst hnil
        rw [rejoined_singleton, rejoined_nil, words_of_blank blank_nil, List.append_nil]
      · rw [rejoined_cons hnil, words_gap (List.cons_ne_nil _ _) (by decide)]

end Text
