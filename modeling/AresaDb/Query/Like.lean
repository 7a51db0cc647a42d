import AresaDb.Lib.Glob
import AresaDb.Query.Where

/-! # LIKE

A LIKE pattern becomes a regular expression in which `%` and `_` are replaced and nothing is escaped
(`Operator::matches`, `query/mod.rs`).  The texts of the pattern are those of SQL (`LikeCovers`);
the texts of the regular expression have as many newlines as the pattern, and may have any character
where the pattern has a dot (`lineCovers_iff`).  So which texts are judged rightly can be told from
the numbers of their newlines and from the dots of the pattern (`like_exact`).

`.` is the one metacharacter whose meaning needs nothing around it, and patterns with it are judged
here; of all others only that they are not escaped. -/

namespace AresaDb.Query

open AresaDb.Store

/-! ### Patterns of SQL -/

/-- What a character of a LIKE pattern stands for. -/
def likeItem (c : Char) : Glob.Item Char :=
  if c = '%' then ⟨fun _ => true, true⟩
  else if c = '_' then ⟨fun _ => true, false⟩
  else ⟨fun d => d = c, false⟩

/-- The pattern covers the text: `%` any part of it, `_` one character, others themselves. -/
def LikeCovers (pattern text : String) : Prop :=
  text.toList ∈ Glob.language (pattern.toList.map likeItem)

instance (pattern text : String) : Decidable (LikeCovers pattern text) := by
  unfold LikeCovers
  infer_instance

/-! ### Regular expressions -/

/-- The characters that are not themselves in a regular expression; a closing bracket is itself
where none was opened. -/
def specials : List Char := metacharacters.filter fun c => c ≠ ']' && c ≠ '}'

/-- Parts of a regular expression. -/
inductive RegexItem where
  | literal (c : Char)
  | any
  | anyStar
deriving DecidableEq

namespace RegexItem

/-- How a part is written. -/
def text : RegexItem → List Char
  | literal c => [c]
  | any => ['.']
  | anyStar => ['.', '*']

/-- What a part stands for: `.` is any character but a newline. -/
def meaning : RegexItem → Glob.Item Char
  | literal c => ⟨fun d => d = c, false⟩
  | any => ⟨fun d => d ≠ '\n', false⟩
  | anyStar => ⟨fun d => d ≠ '\n', true⟩

/-- A literal is no special character. -/
def WellWritten : RegexItem → Prop
  | literal c => c ∉ specials
  | any | anyStar => True

end RegexItem

/-- An anchored regular expression. -/
def anchored (items : List RegexItem) : String :=
  "^" ++ String.ofList (items.flatMap RegexItem.text) ++ "$"

/-- The library reads literals, `.` and `.*` between anchors as its documentation says.  A regular
expression may be too large for it. -/
def RegexEngine.Documented (R : RegexEngine) : Prop :=
  ∀ (items : List RegexItem) (text : String) (matched : Bool),
    (∀ item ∈ items, item.WellWritten) → R.isMatch (anchored items) text = some matched →
      (matched ↔ text.toList ∈ Glob.language (items.map RegexItem.meaning))

/-! ### Patterns read as regular expressions -/

/-- A pattern without special characters other than the dot. -/
def OnlyDots (pattern : String) : Prop := ∀ c ∈ pattern.toList, c ∈ specials → c = '.'

/-- What a character of such a pattern becomes. -/
def regexItem (c : Char) : RegexItem :=
  if c = '%' then .anyStar else if c = '_' ∨ c = '.' then .any else .literal c

/-- The pattern covers the text with `.` for any character, and no newline under it or under a
wildcard. -/
def LineCovers (pattern text : String) : Prop :=
  text.toList ∈ Glob.language (pattern.toList.map fun c => (regexItem c).meaning)

instance (pattern text : String) : Decidable (LineCovers pattern text) := by
  unfold LineCovers
  infer_instance

theorem text_regexItem (c : Char) : (regexItem c).text = wildcard c := by
  unfold regexItem wildcard
  split_ifs with hany hone hone' hone'
  · rfl
  · rfl
  · simp_all [RegexItem.text]
  · simp_all
  · rfl

theorem likeRegex_eq (pattern : String) :
    Operator.likeRegex pattern = anchored (pattern.toList.map regexItem) := by
  rw [← String.toList_inj, toList_likeRegex]
  unfold anchored
  simp [List.flatMap_map, text_regexItem]

theorem wellWritten_regexItem {pattern : String} (h : OnlyDots pattern) :
    ∀ item ∈ pattern.toList.map regexItem, item.WellWritten := by
  intro item hitem
  obtain ⟨c, hc, rfl⟩ := List.mem_map.mp hitem
  unfold regexItem
  split_ifs with hany hone
  · trivial
  · trivial
  · exact fun hmeta => hone (.inr (h c hc hmeta))

/-- What the library says of a pattern without special characters other than the dot. -/
theorem isMatch_iff_lineCovers {R : RegexEngine} (hR : R.Documented) {pattern text : String}
    (h : OnlyDots pattern) (htaken : (R.isMatch (Operator.likeRegex pattern) text).isSome) :
    R.isMatch (Operator.likeRegex pattern) text = some true ↔ LineCovers pattern text := by
  obtain ⟨matched, hmatched⟩ := Option.isSome_iff_exists.mp htaken
  rw [likeRegex_eq] at hmatched
  have hiff := hR _ text matched (wellWritten_regexItem h) hmatched
  rw [likeRegex_eq, hmatched, Option.some.injEq, hiff, LineCovers, List.map_map]
  rfl

/-! ### Newlines and dots -/

def newlines (s : String) : ℕ := s.toList.count '\n'

/-- The pattern with `_` for every dot. -/
def undotted (pattern : String) : String :=
  String.ofList (pattern.toList.map fun c => if c = '.' then '_' else c)

/-- What a dot may stand for when it is read as a wildcard. -/
def looseItem (c : Char) : Glob.Item Char := likeItem (if c = '.' then '_' else c)

theorem likeCovers_undotted (pattern text : String) :
    LikeCovers (undotted pattern) text ↔
      text.toList ∈ Glob.language (pattern.toList.map looseItem) := by
  unfold LikeCovers undotted
  rw [String.toList_ofList, List.map_map]
  rfl

/-- What a part of a line covers is covered without regard to lines, and has the newlines of the
pattern. -/
theorem standsFor_line {c : Char} {part : List Char} (h : (regexItem c).meaning.StandsFor part) :
    (looseItem c).StandsFor part ∧ part.count '\n' = [c].count '\n' := by
  unfold regexItem at h
  unfold looseItem likeItem
  by_cases hany : c = '%'
  · subst hany
    have hall : ∀ d ∈ part, d ≠ '\n' := by simpa [RegexItem.meaning, Glob.Item.StandsFor] using h
    refine ⟨by simp [Glob.Item.StandsFor], ?_⟩
    rw [List.count_eq_zero.mpr fun hin => hall _ hin rfl]
    rfl
  · rw [if_neg hany] at h
    by_cases hone : c = '_' ∨ c = '.'
    · rw [if_pos hone] at h
      obtain ⟨d, hd, rfl⟩ : ∃ d, d ≠ '\n' ∧ part = [d] := by
        simpa [RegexItem.meaning, Glob.Item.StandsFor] using h
      rcases hone with rfl | rfl
      · exact ⟨by simp [Glob.Item.StandsFor], by simp [hd]⟩
      · exact ⟨by simp [Glob.Item.StandsFor], by simp [hd]⟩
    · rw [if_neg hone] at h
      obtain ⟨hone, hdot⟩ := not_or.mp hone
      obtain rfl : part = [c] := by simpa [RegexItem.meaning, Glob.Item.StandsFor] using h
      exact ⟨by simp [Glob.Item.StandsFor, hany, hone, hdot], rfl⟩

/-- A part has the newlines of the pattern, or more; if no more, it is covered line by line. -/
theorem standsFor_loose {c : Char} {part : List Char} (h : (looseItem c).StandsFor part) :
    [c].count '\n' ≤ part.count '\n' ∧
      (part.count '\n' = [c].count '\n' → (regexItem c).meaning.StandsFor part) := by
  unfold looseItem likeItem at h
  unfold regexItem
  by_cases hany : c = '%'
  · subst hany
    refine ⟨by simp, fun hcount => ?_⟩
    have hnone : '\n' ∉ part := List.count_eq_zero.mp hcount
    have hall : ∀ d ∈ part, d ≠ '\n' := fun d hd heq => hnone (heq ▸ hd)
    simpa [RegexItem.meaning, Glob.Item.StandsFor] using hall
  · by_cases hone : c = '_' ∨ c = '.'
    · obtain ⟨d, rfl⟩ : ∃ d, part = [d] := by
        rcases hone with rfl | rfl <;> simpa [Glob.Item.StandsFor] using h
      have hline : [c].count '\n' = 0 := by rcases hone with rfl | rfl <;> rfl
      rw [if_neg hany, if_pos hone, hline]
      refine ⟨Nat.zero_le _, fun hcount => ?_⟩
      have hd : d ≠ '\n' := by simpa [eq_comm] using List.count_eq_zero.mp hcount
      simpa [RegexItem.meaning, Glob.Item.StandsFor] using hd
    · obtain ⟨hone', hdot⟩ := not_or.mp hone
      obtain rfl : part = [c] := by simpa [Glob.Item.StandsFor, hany, hone', hdot] using h
      rw [if_neg hany, if_neg hone]
      exact ⟨le_rfl, fun _ => by simp [RegexItem.meaning, Glob.Item.StandsFor]⟩

theorem lineLanguage_iff (pattern text : List Char) :
    text ∈ Glob.language (pattern.map fun c => (regexItem c).meaning) ↔
      text ∈ Glob.language (pattern.map looseItem) ∧ text.count '\n' = pattern.count '\n' := by
  have hle : ∀ pattern text : List Char, text ∈ Glob.language (pattern.map looseItem) →
      pattern.count '\n' ≤ text.count '\n' := by
    intro pattern
    induction pattern with
    | nil => exact fun _ _ => Nat.zero_le _
    | cons c pattern ih =>
        intro text h
        obtain ⟨part, hpart, rest, hrest, rfl⟩ := Glob.mem_language_cons.mp h
        have hcount := Nat.add_le_add (standsFor_loose hpart).1 (ih rest hrest)
        rwa [← List.count_append, ← List.count_append] at hcount
  induction pattern generalizing text with
  | nil =>
      refine ⟨fun h => ⟨h, ?_⟩, And.left⟩
      obtain rfl : text = [] := by simpa [Glob.language, Language.mem_one] using h
      rfl
  | cons c pattern ih =>
      rw [List.map_cons, List.map_cons, Glob.mem_language_cons, Glob.mem_language_cons,
        ← List.singleton_append, List.count_append]
      constructor
      · rintro ⟨part, hpart, rest, hrest, rfl⟩
        obtain ⟨hloose, hcount⟩ := standsFor_line hpart
        obtain ⟨hrest, hcount'⟩ := (ih rest).mp hrest
        exact ⟨⟨part, hloose, rest, hrest, rfl⟩, by rw [List.count_append, hcount, hcount']⟩
      · rintro ⟨⟨part, hpart, rest, hrest, rfl⟩, hcount⟩
        obtain ⟨hpart', hline⟩ := standsFor_loose hpart
        have hrest' := hle pattern rest hrest
        rw [List.count_append] at hcount
        exact ⟨part, hline (by omega), rest, (ih rest).mpr ⟨hrest, by omega⟩, rfl⟩

/-- What is covered line by line has as many newlines as the pattern, and may have any character for
a dot. -/
theorem lineCovers_iff (pattern text : String) :
    LineCovers pattern text ↔
      LikeCovers (undotted pattern) text ∧ newlines text = newlines pattern := by
  rw [likeCovers_undotted]
  exact lineLanguage_iff pattern.toList text.toList

/-- A dot that stands for itself is some character. -/
theorem LikeCovers.undotted {pattern text : String} (h : LikeCovers pattern text) :
    LikeCovers (undotted pattern) text := by
  have hitem : ∀ (c : Char) (part : List Char), (likeItem c).StandsFor part →
      (looseItem c).StandsFor part := by
    intro c part hpart
    unfold looseItem
    by_cases hdot : c = '.'
    · subst hdot
      obtain rfl : part = ['.'] := by simpa [likeItem, Glob.Item.StandsFor] using hpart
      simp [likeItem, Glob.Item.StandsFor]
    · rwa [if_neg hdot]
  have hlanguage : ∀ pattern text : List Char, text ∈ Glob.language (pattern.map likeItem) →
      text ∈ Glob.language (pattern.map looseItem) := by
    intro pattern
    induction pattern with
    | nil => exact fun _ h => h
    | cons c pattern ih =>
        intro text h
        obtain ⟨part, hpart, rest, hrest, rfl⟩ := Glob.mem_language_cons.mp h
        exact Glob.mem_language_cons.mpr ⟨part, hitem c part hpart, rest, ih rest hrest, rfl⟩
  exact (likeCovers_undotted pattern text).mpr (hlanguage _ _ h)

/-! ### The result -/

/-- The pattern has no special character but the dot.  If the library takes it, a text that it
covers has as many newlines as the pattern, and one that it does not cover has not, or is not
covered with the dots as wildcards either.  If the library finds it too large, the text is not
covered. -/
def LikeSafe (R : RegexEngine) (text pattern : String) : Prop :=
  OnlyDots pattern ∧
    if (R.isMatch (Operator.likeRegex pattern) text).isSome then
      if LikeCovers pattern text then newlines text = newlines pattern
      else LikeCovers (undotted pattern) text → newlines text ≠ newlines pattern
    else ¬ LikeCovers pattern text

theorem agree_iff (pattern text : String) :
    (LineCovers pattern text ↔ LikeCovers pattern text) ↔
      if LikeCovers pattern text then newlines text = newlines pattern
      else LikeCovers (undotted pattern) text → newlines text ≠ newlines pattern := by
  rw [lineCovers_iff]
  split_ifs with h
  · rw [iff_true_right h, and_iff_right h.undotted]
  · rw [iff_false_right h, not_and]

/-- LIKE holds of a text and a pattern that covers it, and of no others, when the pattern is safe
for the text; and only then, if the pattern has no special character but the dot. -/
theorem like_exact {R : RegexEngine} (hR : R.Documented) (text pattern : String) :
    (LikeSafe R text pattern →
      (Operator.matches_ R .like (.string text) (.string pattern) ↔ LikeCovers pattern text)) ∧
    (OnlyDots pattern →
      (Operator.matches_ R .like (.string text) (.string pattern) ↔ LikeCovers pattern text) →
        LikeSafe R text pattern) := by
  have hmatches : Operator.matches_ R .like (.string text) (.string pattern) = true ↔
      R.isMatch (Operator.likeRegex pattern) text = some true := by
    simp [like_matches_iff]
  rw [hmatches]
  have hexact : OnlyDots pattern →
      ((R.isMatch (Operator.likeRegex pattern) text = some true ↔ LikeCovers pattern text) ↔
        LikeSafe R text pattern) := by
    intro hdots
    unfold LikeSafe
    rw [and_iff_right hdots]
    by_cases htaken : (R.isMatch (Operator.likeRegex pattern) text).isSome
    · rw [if_pos htaken, ← agree_iff]
      exact iff_congr (isMatch_iff_lineCovers hR hdots htaken) Iff.rfl
    · rw [if_neg htaken]
      have hnone := Option.not_isSome_iff_eq_none.mp htaken
      simp [hnone]
  exact ⟨fun hsafe => (hexact hsafe.1).mpr hsafe, fun hdots => (hexact hdots).mp⟩

/-! ### A sample -/

/-- The parts of a regular expression up to its `$`. -/
def parseItems : List Char → Option (List RegexItem)
  | [] => none
  | ['$'] => some []
  | '.' :: '*' :: rest => (parseItems rest).map (.anyStar :: ·)
  | '.' :: rest => (parseItems rest).map (.any :: ·)
  | c :: rest => if c ∈ specials then none else (parseItems rest).map (.literal c :: ·)

/-- The regular expressions of literals, `.` and `.*` between anchors. -/
def dotEngine : RegexEngine where
  isMatch regex text :=
    match regex.toList with
    | '^' :: regex =>
        (parseItems regex).map fun items => Glob.accepts (items.map RegexItem.meaning) text.toList
    | _ => none

/-- Parts are read back as they were written. -/
theorem parseItems_text {items : List RegexItem} (h : ∀ item ∈ items, item.WellWritten) :
    parseItems (items.flatMap RegexItem.text ++ ['$']) = some items := by
  induction items with
  | nil => rfl
  | cons item items ih =>
      have hitems : ∀ i ∈ items, i.WellWritten := fun i hi => h i (List.mem_cons_of_mem _ hi)
      have hrest := ih hitems
      rw [List.flatMap_cons, List.append_assoc]
      cases item with
      | anyStar =>
          rw [RegexItem.text, List.cons_append, List.cons_append, List.nil_append,
            parseItems, hrest]
          rfl
      | any =>
          -- After the dot comes no star, since literals are no special characters.
          have hstar : ∀ rest, items.flatMap RegexItem.text ++ ['$'] ≠ '*' :: rest := by
            intro rest heq
            cases items with
            | nil => simp at heq
            | cons next items =>
                have hnext := hitems next List.mem_cons_self
                cases next with
                | literal c =>
                    obtain rfl : c = '*' := (List.cons.inj heq).1
                    exact hnext (by decide)
                | any => simp [RegexItem.text] at heq
                | anyStar => simp [RegexItem.text] at heq
          rw [RegexItem.text, List.singleton_append, parseItems, hrest]
          · rfl
          · exact fun rest heq => hstar rest heq
      | literal c =>
          have hc : c ∉ specials := h _ List.mem_cons_self
          have hdot : c ≠ '.' := fun heq => hc (by rw [heq]; decide)
          have hend : c ≠ '$' := fun heq => hc (by rw [heq]; decide)
          rw [RegexItem.text, List.singleton_append, parseItems, if_neg hc, hrest]
          · rfl
          · exact fun heq => absurd heq hend
          · exact fun _ heq => absurd heq hdot
          · exact fun heq => absurd heq hdot

theorem dotEngine_documented : dotEngine.Documented := by
  intro items text matched hwritten h
  have htext : (anchored items).toList = '^' :: (items.flatMap RegexItem.text ++ ['$']) := by
    simp [anchored]
  simp only [dotEngine, htext, parseItems_text hwritten, Option.map_some, Option.some.injEq] at h
  rw [← h, Glob.mem_language_iff]

theorem like_exact_sample :
    (dotEngine.Documented ∧ LikeSafe dotEngine "a.b c]\nd" "a.%]\nd" ∧ OnlyDots "a.%]\nd") ∧
    ((LikeSafe dotEngine "a.b c]\nd" "a.%]\nd" →
      (Operator.matches_ dotEngine .like (.string "a.b c]\nd") (.string "a.%]\nd") ↔
        LikeCovers "a.%]\nd" "a.b c]\nd")) ∧
    (OnlyDots "a.%]\nd" →
      (Operator.matches_ dotEngine .like (.string "a.b c]\nd") (.string "a.%]\nd") ↔
        LikeCovers "a.%]\nd" "a.b c]\nd") → LikeSafe dotEngine "a.b c]\nd" "a.%]\nd")) := by
  have hdots : OnlyDots "a.%]\nd" := by
    unfold OnlyDots
    simp [specials, metacharacters]
  have hsafe : LikeSafe dotEngine "a.b c]\nd" "a.%]\nd" := by
    refine ⟨hdots, ?_⟩
    decide +kernel
  exact ⟨⟨dotEngine_documented, hsafe, hdots⟩,
    like_exact dotEngine_documented "a.b c]\nd" "a.%]\nd"⟩

/-- `%` does not cover a newline. -/
theorem like_newline :
    ¬ ∀ (R : RegexEngine), R.Documented → ∀ text pattern : String,
      Operator.matches_ R .like (.string text) (.string pattern) ↔ LikeCovers pattern text := by
  intro h
  have hline := h dotEngine dotEngine_documented "one\ntwo" "one%"
  revert hline
  decide +kernel

end AresaDb.Query
