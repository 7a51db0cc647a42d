import AresaDb.Lib.Blanks

/-! # Pieces of a text

A piece is trimmed and not empty.  Pieces stand in a text with white space between them (`Laid`),
and whatever a text is cut into at white space, it has the trimmed parts for pieces (`Joined.laid`).
 Joined by a separator of white space the pieces have the words of the text, and are not longer than
it when no gap is shorter than the separator (`Laid.size_join_le`). -/

namespace Text

variable {sep t a b w p r : List Char} {ps qs raws gs : List (List Char)} {gap m : ℕ}

/-- Trimmed and not empty. -/
def Piece (p : List Char) : Prop := p ≠ [] ∧ trim p = p

theorem Piece.not_blank (h : Piece p) : ¬ Blank p := fun hblank =>
  h.1 (h.2.symm.trans (trim_eq_nil.mpr hblank))

theorem piece_trim (h : ¬ Blank t) : Piece (trim t) :=
    ⟨fun hnil => h (trim_eq_nil.mp hnil), trim_idem t⟩

theorem Piece.trimEnd_eq (h : Piece p) : trimEnd p = p := by
  obtain ⟨b, heq, hb⟩ := exists_trimEnd p
  cases b with
  | nil => rw [List.append_nil] at heq; exact heq.symm
  | cons c b =>
      have hends := (trim_eq_self.mp h.2).2
      rw [heq, endsBlank_append (List.cons_ne_nil c b), endsBlank,
        List.getLast?_eq_some_getLast (List.cons_ne_nil c b), Option.any_some,
        hb _ (List.getLast_mem _)] at hends
      exact Bool.noConfusion hends

/-! ### Texts of pieces -/

/-- The pieces stand in the text, the first behind at least `m` bytes of white space and each other
one behind at least `gap` bytes. -/
inductive Laid (gap : ℕ) : ℕ → List (List Char) → List Char → Prop
  | nil (m : ℕ) : Laid gap m [] []
  | cons {m : ℕ} {w p t : List Char} {ps : List (List Char)} (hw : Blank w) (hm : m ≤ size w)
      (hp : Piece p) (h : Laid gap gap ps t) : Laid gap m (p :: ps) (w ++ (p ++ t))

theorem Laid.piece (h : Laid gap m ps t) : ∀ p ∈ ps, Piece p := by
  induction h with
  | nil m => exact List.forall_mem_nil _
  | cons hw hm hp h ih => exact List.forall_mem_cons.mpr ⟨hp, ih⟩

/-- What stands before the pieces keeps its words to itself. -/
theorem Laid.words_append (hgap : 0 < gap) (h : Laid gap gap ps t) (a : List Char) :
    words (a ++ t) = words a ++ words t := by
  cases h with
  | nil => rw [List.append_nil, words_of_blank blank_nil, List.append_nil]
  | @cons m w p t ps hw hm hp h =>
      have hne : w ≠ [] := fun hnil => by
        rw [hnil, size_nil] at hm
        omega
      rw [words_gap hne hw, words_blank_append hw]

theorem Laid.words_eq (hgap : 0 < gap) (h : Laid gap m ps t) : words t = ps.flatMap words := by
  induction h with
  | nil m => rfl
  | cons hw hm hp h ih => rw [words_blank_append hw, h.words_append hgap, ih, List.flatMap_cons]

theorem Laid.trimEnd_eq (h : Laid gap m ps t) : trimEnd t = t := by
  induction h with
  | nil m => rfl
  | @cons m w p t ps hw hm hp h ih =>
      by_cases hblank : Blank t
      · rw [trimEnd_eq_nil.mpr hblank] at ih
        have hnot : ¬ Blank (p ++ t) := fun h => hp.not_blank (blank_append.mp h).1
        rw [trimEnd_append hnot, trimEnd_append_blank hblank, hp.trimEnd_eq, ← ih, List.append_nil]
      · rw [← List.append_assoc, trimEnd_append hblank, ih]

/-- The text of the pieces up to some place. -/
theorem Laid.append (h : Laid gap m (ps ++ qs) t) (hne : ps ≠ []) :
    ∃ a b, t = a ++ b ∧ Laid gap m ps a ∧ Laid gap gap qs b := by
  induction ps generalizing m t with
  | nil => exact absurd rfl hne
  | cons p ps ih =>
      cases h with
      | @cons m w p t _ hw hm hp h =>
          by_cases hps : ps = []
          · subst hps
            refine ⟨w ++ (p ++ []), t, by simp, .cons hw hm hp (.nil _), h⟩
          · obtain ⟨a, b, rfl, ha, hb⟩ := ih h hps
            exact ⟨w ++ (p ++ a), b, by simp, .cons hw hm hp ha, hb⟩

/-! ### Joined pieces -/

theorem piece_intercalate (hne : ps ≠ []) (hps : ∀ p ∈ ps, Piece p) :
    Piece (sep.intercalate ps) := by
  induction ps with
  | nil => exact absurd rfl hne
  | cons p ps ih =>
      obtain ⟨hp, hps⟩ := List.forall_mem_cons.mp hps
      cases ps with
      | nil => rwa [List.intercalate_singleton]
      | cons q qs =>
          have hrest := ih (List.cons_ne_nil q qs) hps
          rw [List.intercalate_cons_cons]
          refine ⟨by simp [hp.1], trim_eq_self.mpr ⟨?_, ?_⟩⟩
          · rw [List.append_assoc, startsBlank_append hp.1]
            exact (trim_eq_self.mp hp.2).1
          · rw [endsBlank_append hrest.1]
            exact (trim_eq_self.mp hrest.2).2

theorem words_intercalate (hne : sep ≠ []) (hsep : Blank sep) (ts : List (List Char)) :
    words (sep.intercalate ts) = ts.flatMap words := by
  induction ts with
  | nil => exact words_of_blank blank_nil
  | cons t ts ih =>
      cases ts with
      | nil => rw [List.intercalate_singleton, List.flatMap_singleton]
      | cons u ts =>
          rw [List.intercalate_cons_cons, List.append_assoc, words_gap hne hsep, ih]
          exact List.flatMap_cons.symm

/-- Joined by the shortest gap the pieces are not longer than the text. -/
theorem Laid.size_join_le (h : Laid (size sep) m ps t) (hne : ps ≠ []) :
    m + size (sep.intercalate ps) ≤ size t := by
  induction h with
  | nil m => exact absurd rfl hne
  | @cons m w p t ps hw hm hp h ih =>
      cases ps with
      | nil =>
          rw [List.intercalate_singleton, size_append, size_append]
          omega
      | cons q qs =>
          have hrest := ih (List.cons_ne_nil q qs)
          rw [List.intercalate_cons_cons]
          simp only [size_append]
          omega

/-! ### Texts that are cut at white space -/

/-- The text is the parts, one behind the other with at least `gap` bytes of white space between. -/
inductive Joined (gap : ℕ) : List (List Char) → List Char → Prop
  | single (r : List Char) : Joined gap [r] r
  | cons {r w t : List Char} {rs : List (List Char)} (hw : Blank w) (hgap : gap ≤ size w)
      (h : Joined gap rs t) : Joined gap (r :: rs) (r ++ (w ++ t))

/-- The trimmed parts that are not empty. -/
def trimmed (raws : List (List Char)) : List (List Char) := (raws.map trim).filter (· ≠ [])

theorem trimmed_cons_blank (h : Blank r) (rs : List (List Char)) :
    trimmed (r :: rs) = trimmed rs := by
  rw [trimmed, List.map_cons, List.filter_cons_of_neg (by simpa using trim_eq_nil.mpr h), trimmed]

theorem trimmed_cons (h : ¬ Blank r) (rs : List (List Char)) :
    trimmed (r :: rs) = trim r :: trimmed rs := by
  rw [trimmed, List.map_cons,
    List.filter_cons_of_pos (by simpa using fun hnil => h (trim_eq_nil.mp hnil)), trimmed]

theorem Joined.laid_behind (h : Joined gap raws t) (hw : Blank w) (hm : m ≤ size w) :
    ∃ a e, w ++ t = a ++ e ∧ Blank e ∧ Laid gap m (trimmed raws) a := by
  induction h generalizing w m with
  | single r =>
      by_cases hr : Blank r
      · refine ⟨[], w ++ r, rfl, blank_append.mpr ⟨hw, hr⟩, ?_⟩
        rw [trimmed_cons_blank hr]
        exact .nil m
      · obtain ⟨x, y, heq, hx, hy⟩ := exists_trim r
        refine ⟨(w ++ x) ++ (trim r ++ []), y, ?_, hy, ?_⟩
        · conv_lhs => rw [heq]
          simp
        · rw [trimmed_cons hr]
          refine .cons (blank_append.mpr ⟨hw, hx⟩) ?_ (piece_trim hr) (.nil _)
          rw [size_append]
          omega
  | @cons r v t rs hv hgap h ih =>
      by_cases hr : Blank r
      · obtain ⟨a, e, heq, he, ha⟩ := ih (w := w ++ r ++ v) (m := m)
          (blank_append.mpr ⟨blank_append.mpr ⟨hw, hr⟩, hv⟩) (by simp only [size_append]; omega)
        refine ⟨a, e, ?_, he, ?_⟩
        · rw [← heq]
          simp
        · rwa [trimmed_cons_blank hr]
      · obtain ⟨x, y, hr', hx, hy⟩ := exists_trim r
        obtain ⟨a, e, heq, he, ha⟩ := ih (w := y ++ v) (m := gap) (blank_append.mpr ⟨hy, hv⟩)
          (by simp only [size_append]; omega)
        refine ⟨(w ++ x) ++ (trim r ++ a), e, ?_, he, ?_⟩
        · conv_lhs => rw [hr']
          simp only [List.append_assoc] at heq ⊢
          rw [heq]
        · rw [trimmed_cons hr]
          refine .cons (blank_append.mpr ⟨hw, hx⟩) ?_ (piece_trim hr) ha
          rw [size_append]
          omega

/-- The trimmed parts are the pieces of the text, but for white space at its end. -/
theorem Joined.laid (h : Joined gap raws t) :
    ∃ a e, t = a ++ e ∧ Blank e ∧ Laid gap 0 (trimmed raws) a :=
      h.laid_behind blank_nil (Nat.zero_le _)

/-- The parts of a split are joined by what it is split at. -/
theorem joined_split (hne : p ≠ []) (hp : Blank p) (t : List Char) :
    Joined (size p) (split p t) t := by
  obtain hnone | ⟨a, b, heq, hfirst⟩ := firstAfter_or p t hne
  · rw [split_of_first hnone]
    exact .single t
  · subst heq
    have hshort : b.length < (a ++ (p ++ b)).length := by
      have hpos := List.length_pos_iff.mpr hne
      rw [List.length_append, List.length_append]
      omega
    rw [split_append hne hfirst]
    exact .cons hp le_rfl (joined_split hne hp b)
termination_by t.length

end Text
