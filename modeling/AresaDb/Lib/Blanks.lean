import AresaDb.Lib.Text

/-! # White space in texts

What a text shows is what is left without its white space, and its words are the runs of that.
Trimming and collapsing the runs of white space change neither.  Two texts are the same once the one
is trimmed and both are collapsed just when they have the same words and nothing is left to trim of
the other (`collapse_eq_iff`). -/

namespace Text

variable {s t a b u w x y : List Char} {c : Char}

/-! ### Blank texts -/

/-- All is white space. -/
def Blank (t : List Char) : Prop := ∀ c ∈ t, isWhitespace c

instance : Decidable (Blank t) := decidable_of_iff (t.all isWhitespace = true) List.all_eq_true

theorem blank_nil : Blank [] := List.forall_mem_nil _

theorem blank_cons : Blank (c :: t) ↔ isWhitespace c ∧ Blank t := List.forall_mem_cons

theorem blank_append : Blank (a ++ b) ↔ Blank a ∧ Blank b := List.forall_mem_append

/-- What is left without the white space. -/
def visible (t : List Char) : List Char := t.filter fun c => !isWhitespace c

@[simp] theorem visible_append (a b : List Char) : visible (a ++ b) = visible a ++ visible b :=
  List.filter_append a b

theorem visible_eq_nil : visible t = [] ↔ Blank t := by
  simp [visible, Blank]

/-- A text that is not blank, at its first visible character. -/
theorem exists_first_visible (h : ¬ Blank t) :
    ∃ a c b, t = a ++ c :: b ∧ Blank a ∧ isWhitespace c = false := by
  induction t with
  | nil => exact absurd blank_nil h
  | cons d t ih =>
      by_cases hd : isWhitespace d
      · obtain ⟨a, c, b, rfl, ha, hc⟩ := ih fun ht => h (blank_cons.mpr ⟨hd, ht⟩)
        exact ⟨d :: a, c, b, rfl, blank_cons.mpr ⟨hd, ha⟩, hc⟩
      · exact ⟨[], d, t, rfl, blank_nil, Bool.not_eq_true _ ▸ hd⟩

/-! ### Trimming -/

/-- `t.trim_end()` -/
def trimEnd (t : List Char) : List Char := t.rdropWhile isWhitespace

theorem trimEnd_eq_nil : trimEnd t = [] ↔ Blank t := List.rdropWhile_eq_nil_iff

theorem exists_trimEnd (t : List Char) : ∃ b, t = trimEnd t ++ b ∧ Blank b :=
  ⟨t.rtakeWhile isWhitespace, (List.rdropWhile_append_rtakeWhile).symm,
    fun _ hc => List.mem_rtakeWhile_imp hc⟩

theorem trimEnd_append_blank (h : Blank w) (t : List Char) : trimEnd (t ++ w) = trimEnd t := by
  unfold trimEnd List.rdropWhile
  rw [List.reverse_append, List.dropWhile_append_of_pos]
  exact fun c hc => h c (List.mem_reverse.mp hc)

theorem trimEnd_append (h : ¬ Blank b) (a : List Char) : trimEnd (a ++ b) = a ++ trimEnd b := by
  have hne : ¬ (b.reverse.dropWhile isWhitespace).isEmpty := by
    rw [List.isEmpty_iff, ← List.reverse_eq_nil_iff]
    exact fun hnil => h (trimEnd_eq_nil.mp hnil)
  unfold trimEnd List.rdropWhile
  rw [List.reverse_append, List.dropWhile_append, if_neg hne, List.reverse_append,
    List.reverse_reverse]

theorem size_trimEnd (t : List Char) : size (trimEnd t) ≤ size t := by
  obtain ⟨b, heq, -⟩ := exists_trimEnd t
  have hsize := congrArg size heq
  rw [size_append] at hsize
  omega

/-- A text that shows what the first part does reaches the end of that part, less the white space
there. -/
theorem size_trimEnd_le (hs : s <+: x ++ y) (hvisible : visible s = visible x) :
    size (trimEnd x) ≤ size s := by
  obtain ⟨z, hz⟩ := hs
  obtain ⟨r, rfl, -⟩ | ⟨r, rfl, -⟩ := List.append_eq_append_iff.mp hz
  · have hr : Blank r := by
      rw [visible_append, List.self_eq_append_right] at hvisible
      exact visible_eq_nil.mp hvisible
    rw [trimEnd_append_blank hr]
    exact size_trimEnd s
  · have hle := size_trimEnd x
    rw [size_append]
    omega

theorem trim_blank_append (h : Blank w) (t : List Char) : trim (w ++ t) = trim t := by
  rw [trim, trim, List.dropWhile_append_of_pos h]

theorem trim_eq_nil : trim t = [] ↔ Blank t := by
  by_cases h : Blank t
  · have hdrop : trim (t ++ []) = trim [] := trim_blank_append h []
    rw [List.append_nil] at hdrop
    exact iff_of_true hdrop h
  · obtain ⟨a, c, b, rfl, ha, hc⟩ := exists_first_visible h
    rw [trim_blank_append ha, trim_cons hc]
    exact iff_of_false (List.cons_ne_nil _ _) h

theorem exists_trim (t : List Char) : ∃ a b, t = a ++ trim t ++ b ∧ Blank a ∧ Blank b := by
  obtain ⟨b, heq, hb⟩ := exists_trimEnd (t.dropWhile isWhitespace)
  refine ⟨t.takeWhile isWhitespace, b, ?_, fun c hc => List.mem_takeWhile_imp hc, hb⟩
  have htrim : t.dropWhile isWhitespace = trim t ++ b := heq
  rw [List.append_assoc, ← htrim, List.takeWhile_append_dropWhile]

/-- Trimming twice is trimming once. -/
@[simp] theorem trim_idem (t : List Char) : trim (trim t) = trim t := by
  by_cases h : Blank t
  · rw [trim_eq_nil.mpr h]
    rfl
  · obtain ⟨a, c, b, rfl, ha, hc⟩ := exists_first_visible h
    rw [trim_blank_append ha, trim_trim hc]

/-- `t.starts_with(char::is_whitespace)` -/
def startsBlank (t : List Char) : Bool := t.head?.any isWhitespace

@[simp] theorem startsBlank_cons (c : Char) (t : List Char) :
    startsBlank (c :: t) = isWhitespace c := rfl

/-- `t.ends_with(char::is_whitespace)` -/
def endsBlank (t : List Char) : Bool := t.getLast?.any isWhitespace

theorem startsBlank_append (h : a ≠ []) (b : List Char) : startsBlank (a ++ b) = startsBlank a := by
  obtain ⟨c, a, rfl⟩ := List.exists_cons_of_ne_nil h
  rfl

theorem endsBlank_append (h : b ≠ []) (a : List Char) : endsBlank (a ++ b) = endsBlank b := by
  rw [endsBlank, List.getLast?_append_of_ne_nil _ h, endsBlank]

@[simp] theorem endsBlank_trimEnd (t : List Char) : endsBlank (trimEnd t) = false := by
  by_cases h : trimEnd t = []
  · rw [h]
    rfl
  · have hlast := List.rdropWhile_last_not isWhitespace t h
    rw [endsBlank, List.getLast?_eq_some_getLast h, Option.any_some]
    exact Bool.eq_false_iff.mpr hlast

/-- Trimmed is what neither starts nor ends with white space. -/
theorem trim_eq_self : trim t = t ↔ startsBlank t = false ∧ endsBlank t = false := by
  constructor
  · intro h
    rw [← h]
    by_cases ht : Blank t
    · rw [trim_eq_nil.mpr ht]
      exact ⟨rfl, rfl⟩
    · refine ⟨?_, endsBlank_trimEnd _⟩
      obtain ⟨a, c, b, rfl, ha, hc⟩ := exists_first_visible ht
      rw [trim_blank_append ha, trim_cons hc]
      exact hc
  · rintro ⟨hstart, hend⟩
    have hdrop : t.dropWhile isWhitespace = t := by
      cases t with
      | nil => rfl
      | cons c t => exact List.dropWhile_cons_of_neg (Bool.eq_false_iff.mp hstart)
    rw [trim, hdrop, List.rdropWhile_eq_self_iff]
    intro hne
    rw [endsBlank, List.getLast?_eq_some_getLast hne, Option.any_some] at hend
    exact Bool.eq_false_iff.mp hend

/-! ### Words -/

theorem words_append (hc : isWhitespace c) (a b : List Char) :
    words (a ++ c :: b) = words a ++ words b := by
  rw [words, List.splitOnP_append_cons a b hc, List.filter_append, words, words]

theorem words_blank_append (h : Blank w) (t : List Char) : words (w ++ t) = words t := by
  induction w with
  | nil => rfl
  | cons c w ih =>
      obtain ⟨hc, hw⟩ := blank_cons.mp h
      have hcons : words ([] ++ c :: (w ++ t)) = words [] ++ words (w ++ t) := words_append hc _ _
      rw [List.cons_append, ← ih hw]
      exact hcons

theorem words_of_blank (h : Blank w) : words w = [] := by
  have happend := words_blank_append h []
  rw [List.append_nil] at happend
  rw [happend]
  rfl

theorem words_gap (hne : w ≠ []) (h : Blank w) (a b : List Char) :
    words (a ++ (w ++ b)) = words a ++ words b := by
  obtain ⟨c, w, rfl⟩ := List.exists_cons_of_ne_nil hne
  obtain ⟨hc, hw⟩ := blank_cons.mp h
  rw [List.cons_append, words_append hc, words_blank_append hw]

theorem words_append_blank (h : Blank w) (t : List Char) : words (t ++ w) = words t := by
  cases w with
  | nil => rw [List.append_nil]
  | cons c w =>
      obtain ⟨hc, hw⟩ := blank_cons.mp h
      rw [words_append hc, words_of_blank hw, List.append_nil]

@[simp] theorem words_trim (t : List Char) : words (trim t) = words t := by
  obtain ⟨a, b, heq, ha, hb⟩ := exists_trim t
  conv_rhs => rw [heq]
  rw [words_append_blank hb, words_blank_append ha]

theorem words_of_visible (hne : u ≠ []) (h : ∀ c ∈ u, isWhitespace c = false) : words u = [u] := by
  rw [words, List.splitOnP_eq_singleton h, List.filter_cons_of_pos (by simpa using hne),
    List.filter_nil]

/-- The words make up what is visible. -/
theorem flatten_words (t : List Char) : (words t).flatten = visible t := by
  have hfilter : ∀ l : List (List Char), (l.filter (· ≠ [])).flatten = l.flatten := by
    intro l
    induction l with
    | nil => rfl
    | cons a l ih => cases a <;> simp_all
  rw [words, hfilter]
  induction t with
  | nil => rfl
  | cons c t ih =>
      obtain ⟨v, vs, hv⟩ := List.exists_cons_of_ne_nil (List.splitOnP_ne_nil isWhitespace t)
      rw [hv] at ih
      rw [List.splitOnP_cons_eq_if_modifyHead, hv, visible]
      cases hc : isWhitespace c
      · rw [if_neg Bool.false_ne_true, List.filter_cons_of_pos (by rw [hc]; rfl), ← visible, ← ih]
        rfl
      · rw [if_pos rfl, List.filter_cons_of_neg (by rw [hc]; decide), ← visible, ← ih]
        rfl

/-! ### Collapsed white space -/

/-- Each run of white space is made one blank. -/
def collapse : List Char → List Char
  | [] => []
  | c :: t =>
      if isWhitespace c then if startsBlank t then collapse t else ' ' :: collapse t
      else c :: collapse t

theorem startsBlank_collapse (t : List Char) : startsBlank (collapse t) = startsBlank t := by
  induction t with
  | nil => rfl
  | cons c t ih =>
      rw [collapse]
      split_ifs with hc ht
      · rw [ih, ht]
        exact hc.symm
      · exact hc.symm
      · rfl

theorem collapse_ne_nil (h : t ≠ []) : collapse t ≠ [] := by
  induction t with
  | nil => exact absurd rfl h
  | cons c t ih =>
      rw [collapse]
      split_ifs with hc ht
      · refine ih fun hnil => ?_
        rw [hnil] at ht
        exact Bool.noConfusion ht
      · exact List.cons_ne_nil _ _
      · exact List.cons_ne_nil _ _

theorem endsBlank_cons (h : t ≠ []) (c : Char) : endsBlank (c :: t) = endsBlank t :=
  endsBlank_append h [c]

theorem endsBlank_collapse (t : List Char) : endsBlank (collapse t) = endsBlank t := by
  induction t with
  | nil => rfl
  | cons c t ih =>
      by_cases hnil : t = []
      · subst hnil
        cases hc : isWhitespace c <;> simp [collapse, startsBlank, endsBlank, hc]
        decide
      · have hne := collapse_ne_nil hnil
        rw [endsBlank_cons hnil, ← ih, collapse]
        split_ifs
        · rfl
        · exact endsBlank_cons hne _
        · exact endsBlank_cons hne _

/-- Collapsing leaves the words as they are, behind a part of a word too. -/
theorem words_append_collapse (hu : ∀ c ∈ u, isWhitespace c = false) (t : List Char) :
    words (u ++ collapse t) = words (u ++ t) := by
  induction t generalizing u with
  | nil => rfl
  | cons c t ih =>
      rw [collapse]
      split_ifs with hc ht
      · cases t with
        | nil => exact Bool.noConfusion ht
        | cons d t =>
            have hd : isWhitespace d := ht
            have hall := words_blank_append (blank_cons.mpr ⟨hd, blank_nil⟩) t
            rw [ih hu, words_append hc, words_append hd]
            exact congrArg _ hall.symm
      · have hnil := ih (List.forall_mem_nil _)
        rw [List.nil_append, List.nil_append] at hnil
        rw [words_append hc, words_append (by decide), hnil]
      · have hword := ih (u := u ++ [c]) fun d hd => by
          obtain hd | hd := List.mem_append.mp hd
          · exact hu d hd
          · rw [List.mem_singleton.mp hd]
            exact Bool.eq_false_iff.mpr hc
        rwa [List.append_assoc, List.append_assoc] at hword

theorem words_collapse (t : List Char) : words (collapse t) = words t :=
  words_append_collapse (List.forall_mem_nil _) t

theorem collapse_visible_append (hu : ∀ c ∈ u, isWhitespace c = false) (t : List Char) :
    collapse (u ++ t) = u ++ collapse t := by
  induction u with
  | nil => rfl
  | cons c u ih =>
      obtain ⟨hc, hu⟩ := List.forall_mem_cons.mp hu
      rw [List.cons_append, collapse, if_neg (Bool.eq_false_iff.mp hc), ih hu, List.cons_append]

theorem collapse_blank_append (hne : w ≠ []) (hw : Blank w) (ht : startsBlank t = false) :
    collapse (w ++ t) = ' ' :: collapse t := by
  induction w with
  | nil => exact absurd rfl hne
  | cons c w ih =>
      obtain ⟨hc, hw⟩ := blank_cons.mp hw
      rw [List.cons_append, collapse, if_pos hc]
      cases w with
      | nil => exact if_neg (Bool.eq_false_iff.mp ht)
      | cons d w =>
          have hd : startsBlank (d :: w ++ t) := (blank_cons.mp hw).1
          rw [if_pos hd, ih (List.cons_ne_nil d w) hw]

/-- A text at the end of its first word. -/
theorem exists_word (hne : t ≠ []) (hstart : startsBlank t = false) :
    ∃ u r, t = u ++ r ∧ u ≠ [] ∧ (∀ c ∈ u, isWhitespace c = false) ∧ (r = [] ∨ startsBlank r) := by
  induction t with
  | nil => exact absurd rfl hne
  | cons c t ih =>
      have hc : ∀ d ∈ [c], isWhitespace d = false := fun d hd => List.mem_singleton.mp hd ▸ hstart
      by_cases hnil : t = []
      · subst hnil
        exact ⟨[c], [], rfl, List.cons_ne_nil _ _, hc, .inl rfl⟩
      cases hblank : startsBlank t
      · obtain ⟨u, r, rfl, -, hu, hr⟩ := ih hnil hblank
        exact ⟨c :: u, r, rfl, List.cons_ne_nil _ _, List.forall_mem_cons.mpr ⟨hstart, hu⟩, hr⟩
      · exact ⟨[c], t, rfl, List.cons_ne_nil _ _, hc, .inr hblank⟩

/-- What is trimmed collapses to its words with a blank between two of them. -/
theorem collapse_trimmed {t : List Char} (hstart : startsBlank t = false)
    (hend : endsBlank t = false) :
    collapse t = [' '].intercalate (words t) := by
  by_cases hne : t = []
  · rw [hne]
    rfl
  obtain ⟨u, r, rfl, hu, hword, rfl | hr⟩ := exists_word hne hstart
  · rw [words_append_blank blank_nil, words_of_visible hu hword, collapse_visible_append hword,
      List.intercalate_singleton]
    exact List.append_nil u
  · have hrne : r ≠ [] := fun hnil => by
      rw [hnil] at hr
      exact Bool.noConfusion hr
    rw [endsBlank_append hrne] at hend
    have hblank : ¬ Blank r := fun h => by
      rw [endsBlank, List.getLast?_eq_some_getLast hrne, Option.any_some,
        h _ (List.getLast_mem hrne)] at hend
      exact Bool.noConfusion hend
    obtain ⟨w, c, b, rfl, hw, hc⟩ := exists_first_visible hblank
    have hwne : w ≠ [] := fun hnil => by
      rw [hnil] at hr
      exact Bool.noConfusion (hr.symm.trans hc)
    rw [endsBlank_append (List.cons_ne_nil _ _)] at hend
    have hwords : words (c :: b) ≠ [] := fun hnil => by
      have hflat := flatten_words (c :: b)
      rw [hnil, visible, List.filter_cons_of_pos (by rw [hc]; rfl)] at hflat
      exact List.cons_ne_nil _ _ hflat.symm
    obtain ⟨v, vs, hv⟩ := List.exists_cons_of_ne_nil hwords
    have hcb : startsBlank (c :: b) = false := hc
    have hshort : (c :: b).length < (u ++ (w ++ c :: b)).length := by
      have hpos := List.length_pos_iff.mpr hu
      rw [List.length_append, List.length_append]
      omega
    rw [words_gap hwne hw, words_of_visible hu hword, collapse_visible_append hword,
      collapse_blank_append hwne hw hcb, collapse_trimmed hcb hend, hv, List.singleton_append,
      List.intercalate_cons_cons, List.append_assoc, List.singleton_append]
termination_by t.length

/-- A text is another one but for white space and trimming. -/
theorem collapse_eq_iff : collapse (trim s) = collapse t ↔ words s = words t ∧ trim t = t := by
  have hs := trim_eq_self.mp (trim_idem s)
  constructor
  · intro h
    have hwords := congrArg words h
    rw [words_collapse, words_collapse, words_trim] at hwords
    refine ⟨hwords, trim_eq_self.mpr ?_⟩
    rw [← startsBlank_collapse t, ← endsBlank_collapse t, ← h, startsBlank_collapse,
      endsBlank_collapse]
    exact hs
  · rintro ⟨hwords, ht⟩
    have ht' := trim_eq_self.mp ht
    rw [collapse_trimmed hs.1 hs.2, collapse_trimmed ht'.1 ht'.2, words_trim, hwords]

end Text
