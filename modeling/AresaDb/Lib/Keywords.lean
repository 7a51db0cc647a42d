import AresaDb.Lib.Text

/-! # Keywords between blanks

Occurrences of keywords, each with a blank on either side, in a text whose characters are first
mapped to others, as to upper case.  A text is clear before another one when no occurrence begins in
it (`Clear`).  Words of other letters, and texts in quotes without keywords, are clear. -/

namespace Text

variable {φ : Char → Char} {keywords : List (List Char)} {a a' b t w s tail : List Char}
    {c d : Char}

/-- A keyword between blanks. -/
def between (keyword : List Char) : List Char := ' ' :: (keyword ++ [' '])

/-- The text begins with a keyword between blanks. -/
def Begins (φ : Char → Char) (keywords : List (List Char)) (t : List Char) : Prop :=
  ∃ keyword ∈ keywords, between keyword <+: t.map φ

instance (φ : Char → Char) (keywords : List (List Char)) (t : List Char) :
    Decidable (Begins φ keywords t) := by
  unfold Begins
  infer_instance

/-- No occurrence begins in the first text, when the second one comes after it. -/
def Clear (φ : Char → Char) (keywords : List (List Char)) (a b : List Char) : Prop :=
  ∀ x y, a = x ++ y → y ≠ [] → ¬ Begins φ keywords (y ++ b)

theorem clear_nil : Clear φ keywords [] b :=
  fun _ _ heq hy => absurd (List.append_eq_nil_iff.mp heq.symm).2 hy

theorem clear_cons :
    Clear φ keywords (c :: a) b ↔ ¬ Begins φ keywords (c :: (a ++ b)) ∧ Clear φ keywords a b := by
  constructor
  · intro h
    refine ⟨h [] (c :: a) rfl (List.cons_ne_nil _ _), fun x y heq => h (c :: x) y ?_⟩
    rw [heq, List.cons_append]
  · rintro ⟨hhead, htail⟩ x y heq hy
    cases x with
    | nil =>
        rw [List.nil_append] at heq
        rwa [← heq]
    | cons d x => exact htail x y (List.cons.inj heq).2 hy

theorem clear_append :
    Clear φ keywords (a ++ a') b ↔ Clear φ keywords a (a' ++ b) ∧ Clear φ keywords a' b := by
  induction a with
  | nil => exact (and_iff_right clear_nil).symm
  | cons c a ih =>
      rw [List.cons_append, clear_cons, clear_cons, ih, and_assoc, List.append_assoc]

/-! ### Clear texts -/

/-- An occurrence begins with a blank. -/
theorem not_begins_of_ne (hc : φ c ≠ ' ') : ¬ Begins φ keywords (c :: t) := by
  rintro ⟨keyword, -, hpre⟩
  rw [List.map_cons, between, List.cons_prefix_cons] at hpre
  exact hc hpre.1.symm

theorem clear_of_no_blank (h : ∀ c ∈ a, φ c ≠ ' ') : Clear φ keywords a b := by
  induction a with
  | nil => exact clear_nil
  | cons c a ih =>
      obtain ⟨hc, ha⟩ := List.forall_mem_cons.mp h
      exact clear_cons.mpr ⟨not_begins_of_ne hc, ih ha⟩

/-- After the blank comes the first letter of a keyword. -/
theorem not_begins_of_head (h : ∀ keyword ∈ keywords, ∃ k rest, keyword = k :: rest ∧ k ≠ φ c) :
    ¬ Begins φ keywords (d :: c :: t) := by
  rintro ⟨keyword, hkeyword, hpre⟩
  obtain ⟨k, rest, rfl, hk⟩ := h keyword hkeyword
  rw [List.map_cons, List.map_cons, between, List.cons_append, List.cons_prefix_cons,
    List.cons_prefix_cons] at hpre
  exact hk hpre.2.1

/-- A beginning of a text without a character of it does not reach that character. -/
theorem prefix_of_prefix_append {α : Type} {p l l' : List α} {x : α} (hx : x ∉ p)
    (h : p <+: l ++ x :: l') : p <+: l := by
  obtain hshort | ⟨z, rfl⟩ := List.prefix_or_prefix_of_prefix h (List.prefix_append l (x :: l'))
  · exact hshort
  · cases z with
    | nil => rw [List.append_nil]
    | cons y z =>
        rw [List.prefix_append_right_inj, List.cons_prefix_cons] at h
        rw [h.1] at hx
        exact absurd (List.mem_append_right l List.mem_cons_self) hx

/-- A part of a text without a character of it lies on one of its sides. -/
theorem infix_append_cons {α : Type} {p l l' : List α} {x : α} (hx : x ∉ p) :
    p <:+: l ++ x :: l' ↔ p <:+: l ∨ p <:+: l' := by
  constructor
  · intro h
    induction l with
    | nil =>
        obtain hpre | hinner := List.infix_cons_iff.mp h
        · refine .inl (List.IsPrefix.isInfix ?_)
          exact prefix_of_prefix_append hx hpre
        · exact .inr hinner
    | cons y l ih =>
        obtain hpre | hinner := List.infix_cons_iff.mp h
        · exact .inl (prefix_of_prefix_append (l := y :: l) hx hpre).isInfix
        · exact (ih hinner).imp_left fun h => h.trans (List.suffix_cons y l).isInfix
  · rintro (h | h)
    · exact h.trans (List.prefix_append _ _).isInfix
    · exact h.trans ((List.suffix_cons x l').trans (List.suffix_append l _)).isInfix

/-- Two words up to a separator. -/
theorem prefix_until {α : Type} {sep : α} {l l' rest : List α} (hl : sep ∉ l) (hl' : sep ∉ l') :
    l ++ [sep] <+: l' ++ sep :: rest ↔ l = l' := by
  constructor
  · intro h
    have hle : l <+: l' := prefix_of_prefix_append hl ((List.prefix_append l [sep]).trans h)
    obtain ⟨z, rfl⟩ := hle
    rw [List.append_assoc, List.prefix_append_right_inj] at h
    cases z with
    | nil => rw [List.append_nil]
    | cons c z =>
        rw [List.cons_append, List.cons_prefix_cons] at h
        exact absurd (List.mem_append_right l (h.1 ▸ List.mem_cons_self)) hl'
  · rintro rfl
    exact ⟨rest, by simp⟩

/-- A word between blanks is an occurrence if it is a keyword. -/
theorem begins_word (hblank : φ ' ' = ' ') (hkeywords : ∀ keyword ∈ keywords, ' ' ∉ keyword)
    (hw : ∀ c ∈ w, φ c ≠ ' ') :
    Begins φ keywords (' ' :: (w ++ ' ' :: t)) ↔ w.map φ ∈ keywords := by
  have hword : ' ' ∉ w.map φ := by
    rintro hm
    obtain ⟨c, hc, heq⟩ := List.mem_map.mp hm
    exact hw c hc heq
  unfold Begins between
  simp only [List.map_cons, List.map_append, hblank, List.cons_prefix_cons, true_and]
  constructor
  · rintro ⟨keyword, hkeyword, hpre⟩
    rwa [← (prefix_until (hkeywords keyword hkeyword) hword).mp hpre]
  · exact fun h => ⟨_, h, (prefix_until (hkeywords _ h) hword).mpr rfl⟩

/-- No keyword goes over a character that none of them has. -/
theorem clear_of_not_infix (hd : ∀ keyword ∈ keywords, φ d ∉ between keyword)
    (h : ∀ keyword ∈ keywords, ¬ between keyword <:+: s.map φ) : Clear φ keywords s (d :: b) := by
  rintro x y rfl hy ⟨keyword, hkeyword, hpre⟩
  rw [List.map_append, List.map_cons] at hpre
  refine h keyword hkeyword ?_
  rw [List.map_append]
  exact (prefix_of_prefix_append (hd keyword hkeyword) hpre).isInfix.trans
    (List.suffix_append _ _).isInfix

/-- A text with a keyword in it is not clear. -/
theorem not_clear_of_inside {keyword : List Char} (hkeyword : keyword ∈ keywords)
    (h : between keyword <:+: s.map φ) : ¬ Clear φ keywords s b := by
  intro hclear
  obtain ⟨x, z, hz⟩ := h
  rw [List.append_assoc] at hz
  obtain ⟨x, y, rfl, rfl, hy⟩ := List.append_eq_map_iff.mp hz
  refine hclear x y rfl ?_ ⟨keyword, hkeyword, ?_⟩
  · rintro rfl
    cases hy
  · rw [List.map_append, hy, List.append_assoc]
    exact List.prefix_append _ _

/-! ### Cutting off -/

/-- What comes before the first occurrence in a text with a tail, if it begins before the tail. -/
def upTo (φ : Char → Char) (keywords : List (List Char)) (tail : List Char) :
    List Char → List Char
  | [] => []
  | c :: t => if Begins φ keywords (c :: (t ++ tail)) then [] else c :: upTo φ keywords tail t

theorem upTo_append (h : Clear φ keywords a (t ++ tail)) :
    upTo φ keywords tail (a ++ t) = a ++ upTo φ keywords tail t := by
  induction a with
  | nil => rfl
  | cons c a ih =>
      obtain ⟨hhead, htail⟩ := clear_cons.mp h
      rw [← List.append_assoc] at hhead
      rw [List.cons_append, upTo, if_neg hhead, ih htail, List.cons_append]

/-- The text is cut off where an occurrence begins, or not at all. -/
theorem upTo_spec (φ : Char → Char) (keywords : List (List Char)) (tail t : List Char) :
    ∃ rest, t = upTo φ keywords tail t ++ rest ∧
      Clear φ keywords (upTo φ keywords tail t) (rest ++ tail) ∧
        (rest = [] ∨ Begins φ keywords (rest ++ tail)) := by
  induction t with
  | nil => exact ⟨[], rfl, clear_nil, .inl rfl⟩
  | cons c t ih =>
      rw [upTo]
      split_ifs with hbegins
      · exact ⟨c :: t, rfl, clear_nil, .inr hbegins⟩
      · obtain ⟨rest, heq, hclear, hrest⟩ := ih
        refine ⟨rest, congrArg (c :: ·) heq, clear_cons.mpr ⟨?_, hclear⟩, hrest⟩
        rwa [← List.append_assoc, ← heq]

/-- A text that is not clear is cut off within it. -/
theorem upTo_of_not_clear (h : ¬ Clear φ keywords a (t ++ tail)) :
    ∃ x y, a = x ++ y ∧ y ≠ [] ∧ upTo φ keywords tail (a ++ t) = x := by
  induction a with
  | nil => exact absurd clear_nil h
  | cons c a ih =>
      rw [List.cons_append, upTo]
      split_ifs with hbegins
      · exact ⟨[], c :: a, rfl, List.cons_ne_nil _ _, rfl⟩
      · rw [List.append_assoc] at hbegins
        obtain ⟨x, y, rfl, hy, hx⟩ := ih fun hclear => h (clear_cons.mpr ⟨hbegins, hclear⟩)
        exact ⟨c :: x, y, rfl, hy, congrArg (c :: ·) hx⟩

/-! ### Finding and splitting -/

/-- A clear text does not delay the first place of a keyword. -/
theorem Clear.firstAfter {keyword : List Char} (h : Clear φ keywords a b)
    (hkeyword : keyword ∈ keywords) : FirstAfter (between keyword) (a.map φ) (b.map φ) := by
  intro x y heq hy hpre
  obtain ⟨x, y, rfl, rfl, rfl⟩ := List.map_eq_append_iff.mp heq
  refine h x y rfl (fun hnil => hy (by rw [hnil]; rfl)) ⟨keyword, hkeyword, ?_⟩
  rwa [List.map_append]

theorem Clear.firstAfter_id {keyword : List Char} (h : Clear id [keyword] a b) :
    FirstAfter (between keyword) a b := by
  simpa using h.firstAfter (List.mem_singleton_self keyword)

end Text
