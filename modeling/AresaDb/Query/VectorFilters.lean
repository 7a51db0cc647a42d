import AresaDb.Query.WhereText

/-! # Filters of a vector search

Conditions joined by AND after the WHERE of a VECTOR SEARCH statement, and the filters that the
parser reads.  It cuts the clause off at a LIMIT or METRIC between blanks and splits it at every
`AND` between blanks, in strings too.  The filters are those conditions exactly when every AND is in
upper case, no column but the first is called LIMIT or METRIC, and no string contains one of the
keywords between blanks, or an operator that is looked for before its condition's own
(`filters_round_trip_iff`). -/

namespace AresaDb.Query

open AresaDb.Store Text

/-- The keywords that end a WHERE clause. -/
def endKeywords : List (List Char) := ["LIMIT".toList, "METRIC".toList]

/-- AND, in any case. -/
structure Joiner where
  text : List Char
  isAnd : text.map Char.toUpper = "AND".toList

/-- The conditions as they are written; the joiner of the first one is not. -/
def whereText : List (Joiner × Filter) → List Char
  | [] => []
  | (_, f) :: rest => f.text ++ rest.flatMap fun (j, g) => ' ' :: (j.text ++ ' ' :: g.text)

/-- A string has no keyword between blanks in it, and no operator that is looked for before the
condition's own. -/
def Filter.ReadBack (f : Filter) : Prop :=
  ∀ s, f.literal = .string s → (∀ o ∈ f.earlier, ¬ o.1 <:+: s) ∧ ¬ between "AND".toList <:+: s ∧
    ∀ keyword ∈ endKeywords, ¬ between keyword <:+: s.map Char.toUpper

/-- The conditions under which conditions are read back. -/
structure RoundTrips (conditions : List (Joiner × Filter)) : Prop where
  joiners : ∀ c ∈ conditions.tail, c.1.text = "AND".toList
  columns : ∀ c ∈ conditions.tail, c.2.column.map Char.toUpper ∉ endKeywords
  literals : ∀ c ∈ conditions, c.2.ReadBack

/-! ### Words of a condition -/

/-- The characters before the literal of a condition, and the literals, begin none of the keywords
of a set after a mapping of the characters. -/
structure Marker (φ : Char → Char) (keywords : List (List Char)) : Prop where
  blank : ∀ c, φ c = ' ' ↔ c = ' '
  heads : ∀ keyword ∈ keywords, ∃ k rest, keyword = k :: rest ∧
    ∀ c, isNameChar c = false ∨ c.isDigit ∨ c ∈ ['t', 'f', 'n'] → k ≠ φ c
  words : ∀ keyword ∈ keywords, ' ' ∉ keyword ∧ φ '\'' ∉ between keyword

theorem marker_and : Marker id ["AND".toList] where
  blank := fun _ => Iff.rfl
  heads := by
    intro keyword hkeyword
    obtain rfl := List.mem_singleton.mp hkeyword
    refine ⟨_, _, rfl, fun c hc heq => ?_⟩
    obtain rfl : c = 'A' := heq.symm
    revert hc
    decide
  words := by decide

theorem toUpper_eq_blank (c : Char) : c.toUpper = ' ' ↔ c = ' ' := by
  constructor
  · intro h
    by_cases hlower : c.isLower
    · have halpha : c.toUpper.isAlpha := by
        rw [Char.isAlpha_toUpper_eq_isAlpha, Char.isAlpha, hlower, Bool.or_true]
      rw [h] at halpha
      exact absurd halpha (by decide)
    · rwa [Char.toUpper_eq_of_not_isLower hlower] at h
  · rintro rfl
    decide

theorem marker_end : Marker Char.toUpper endKeywords where
  blank := toUpper_eq_blank
  heads := by
    have hletters : ∀ k ∈ ['L', 'M'], ∀ c : Char,
        isNameChar c = false ∨ c.isDigit ∨ c ∈ ['t', 'f', 'n'] → k ≠ c.toUpper := by
      rintro k hk c hc rfl
      by_cases hlower : c.isLower
      · obtain hname | hdigit | hmem := hc
        · simp [isNameChar, Char.isAlphanum, Char.isAlpha, hlower] at hname
        · simp only [Char.isLower, Char.isDigit, Bool.and_eq_true, decide_eq_true_eq, ge_iff_le,
            UInt32.le_iff_toNat_le] at hlower hdigit
          have hletter : 97 ≤ c.val.toNat := hlower.1
          have hnumber : c.val.toNat ≤ 57 := hdigit.2
          omega
        · obtain rfl | rfl | rfl := by simpa using hmem
          all_goals exact absurd hk (by decide)
      · rw [Char.toUpper_eq_of_not_isLower hlower] at hk
        obtain rfl | rfl := by simpa using hk
        all_goals exact absurd hc (by decide)
    intro keyword hkeyword
    obtain rfl | rfl : keyword = "LIMIT".toList ∨ keyword = "METRIC".toList := by
      simpa [endKeywords] using hkeyword
    · exact ⟨_, _, rfl, hletters 'L' (by decide)⟩
    · exact ⟨_, _, rfl, hletters 'M' (by decide)⟩
  words := by decide

section

variable {φ : Char → Char} {keywords : List (List Char)} {f : Filter} {b : List Char}

theorem Marker.clear_of_no_blank (h : Marker φ keywords) {a : List Char} (ha : ' ' ∉ a) :
    Clear φ keywords a b :=
  Text.clear_of_no_blank fun c hc hblank => ha ((h.blank c).mp hblank ▸ hc)

theorem IsName.blank_notMem {w : List Char} (h : IsName w) : ' ' ∉ w :=
  fun hmem => absurd (h.2 ' ' hmem) (by decide)

/-- No keyword begins before the literal. -/
theorem Marker.clear_front (h : Marker φ keywords) (f : Filter) {c : Char} {rest : List Char}
    (hc : isNameChar c = false ∨ c.isDigit ∨ c ∈ ['t', 'f', 'n']) :
    Clear φ keywords (f.column ++ ' ' :: (f.operator.1 ++ [' '])) (c :: rest) := by
  obtain ⟨hne, hchars⟩ := operator_chars f.known
  obtain ⟨d, own, hd⟩ := List.exists_cons_of_ne_nil hne
  have hhead : ∀ {c : Char} {t : List Char}, isNameChar c = false ∨ c.isDigit ∨
    c ∈ ['t', 'f', 'n'] →
      ¬ Begins φ keywords (' ' :: c :: t) := fun hc => not_begins_of_head fun keyword hkeyword => by
    obtain ⟨k, rest, heq, hk⟩ := h.heads keyword hkeyword
    exact ⟨k, rest, heq, hk _ hc⟩
  rw [clear_append, clear_cons, clear_append]
  refine ⟨h.clear_of_no_blank f.name.blank_notMem, ?_,
    h.clear_of_no_blank (blank_notMem_operator f.known), clear_cons.mpr ⟨hhead hc, clear_nil⟩⟩
  rw [hd]
  exact hhead (.inl (hchars d (hd ▸ List.mem_cons_self)).1)

/-- No keyword begins in a literal, if it has none in it. -/
theorem Marker.clear_literal (h : Marker φ keywords) {l : Literal}
    (hl : ∀ s, l = .string s → ∀ keyword ∈ keywords, ¬ between keyword <:+: s.map φ) :
    Clear φ keywords l.text b := by
  obtain ⟨s, rfl⟩ | ⟨-, hchars⟩ := l.text_cases
  · have hquote : φ '\'' ≠ ' ' := fun hblank => absurd ((h.blank '\'').mp hblank) (by decide)
    refine clear_cons.mpr ⟨not_begins_of_ne hquote, clear_append.mpr ⟨?_, ?_⟩⟩
    · exact clear_of_not_infix (fun keyword hkeyword => (h.words keyword hkeyword).2) (hl s rfl)
    · exact clear_cons.mpr ⟨not_begins_of_ne hquote, clear_nil⟩
  · exact h.clear_of_no_blank fun hmem => absurd (hchars ' ' hmem) (by decide)

end

/-! ### Pieces of a clause -/

/-- What is read of the pieces of a clause. -/
def parseParts (parts : List (List Char)) : Option (List Condition) :=
  (((parts.map trim).filter (· ≠ [])).mapM parseSingleCondition).map List.reduceOption

theorem parseSimpleWhere_eq (t : List Char) :
    parseSimpleWhere t = parseParts (split (between "AND".toList) t) := rfl

/-- What is read begins with what is read of the first piece, if anything is. -/
theorem parseParts_cons {part : List Char} (hpart : trim part ≠ [])
    (hskip : parseSingleCondition (trim part) ≠ some none) (parts : List (List Char))
      (c : Condition)
    (cs : List Condition) : parseParts (part :: parts) = some (c :: cs) ↔
      parseSingleCondition (trim part) = some (some c) ∧ parseParts parts = some cs := by
  unfold parseParts
  rw [List.map_cons, List.filter_cons_of_pos (by simpa using hpart), List.mapM_cons]
  obtain hnone | ⟨c', hc'⟩ : parseSingleCondition (trim part) = none ∨
      ∃ c', parseSingleCondition (trim part) = some (some c') := by
    rcases hparse : parseSingleCondition (trim part) with _ | _ | c'
    · exact .inl rfl
    · exact absurd hparse hskip
    · exact .inr ⟨c', rfl⟩
  · simp [hnone]
  · rw [hc']
    cases ((parts.map trim).filter (· ≠ [])).mapM parseSingleCondition with
    | none => simp
    | some rest => simp [List.reduceOption_cons_of_some]

section

variable {f : Filter} {v : List Char} {parts : List (List Char)}

theorem Filter.text_eq : f.text = f.upToValue f.literal.text := rfl

theorem Filter.trim_upToValue {c : Char} (hc : isWhitespace c = false) (v : List Char) :
    trim (f.upToValue (c :: v)) = f.upToValue (trim (c :: v)) := by
  obtain ⟨d, column, hd⟩ := List.exists_cons_of_ne_nil f.name.1
  have hd' := isWhitespace_of_isNameChar (f.name.2 d (hd ▸ List.mem_cons_self))
  have happend : ∀ v, f.upToValue v = d :: ((column ++ ' ' :: (f.operator.1 ++ [' '])) ++ v) := by
    intro v
    simp [Filter.upToValue, hd]
  rw [happend, happend, trim_append hd' hc]

/-- A first piece that begins as the condition does is read as the condition when the value is the
literal's, and no earlier operator is in the way. -/
theorem Filter.reads_iff {c : Char} (hc : isWhitespace c = false) (cs : List Condition) :
    parseParts (f.upToValue (c :: v) :: parts) = some (f.condition :: cs) ↔
      ((∀ o ∈ f.earlier, ¬ o.1 <:+: trim (c :: v)) ∧
        conditionValue (trim (c :: v)) = some f.literal.value) ∧ parseParts parts = some cs := by
  have htrim := Filter.trim_upToValue (f := f) hc v
  have hne : trim (f.upToValue (c :: v)) ≠ [] := by
    rw [htrim, Filter.upToValue]
    simp
  have hskip : parseSingleCondition (trim (f.upToValue (c :: v))) ≠ some none := by
    rw [htrim]
    exact Filter.parse_ne_skip
  rw [parseParts_cons hne hskip, htrim, Filter.parse_eq_condition, trim_trim hc]

/-- A first piece with another value is not read as the condition. -/
theorem Filter.not_reads {c : Char} (hc : isWhitespace c = false)
    (h : conditionValue (trim (c :: v)) ≠ some f.literal.value) (cs : List Condition) :
    parseParts (f.upToValue (c :: v) :: parts) ≠ some (f.condition :: cs) :=
  fun hparse => h ((Filter.reads_iff hc cs).mp hparse).1.2

/-- What is written before the literal. -/
def Filter.front (f : Filter) : List Char := f.column ++ ' ' :: (f.operator.1 ++ [' '])

theorem Filter.upToValue_eq (v : List Char) : f.upToValue v = f.front ++ v := by
  simp [Filter.upToValue, Filter.front]

/-- The operators of a literal are those of its string. -/
theorem Filter.operators_iff : (∀ o ∈ f.earlier, ¬ o.1 <:+: f.literal.text) ↔
    ∀ s, f.literal = .string s → ∀ o ∈ f.earlier, ¬ o.1 <:+: s := by
  obtain ⟨s, hs⟩ | ⟨-, hchars⟩ := f.literal.text_cases
  · have hsides : ∀ o ∈ f.earlier, o.1 <:+: f.literal.text ↔ o.1 <:+: s := by
      intro o ho
      obtain ⟨hne, hchars⟩ := operator_chars (Filter.mem_of_earlier ho)
      have hquote : '\'' ∉ o.1 := fun h => (hchars _ h).2.2 rfl
      have hnil : ¬ o.1 <:+: [] := fun h => hne (List.infix_nil.mp h)
      rw [hs]
      change o.1 <:+: [] ++ '\'' :: (s ++ '\'' :: []) ↔ _
      rw [infix_append_cons hquote, infix_append_cons hquote, or_iff_right hnil, or_iff_left hnil]
    constructor
    · intro h s' hs' o ho
      obtain rfl : s = s' := Literal.string.inj (hs.symm.trans hs')
      exact mt (hsides o ho).mpr (h o ho)
    · exact fun h o ho => mt (hsides o ho).mp (h s hs o ho)
  · refine iff_of_true (fun o ho hinner => ?_) (fun s hs => ?_)
    · obtain ⟨hne, hop⟩ := operator_chars (Filter.mem_of_earlier ho)
      obtain ⟨c, hc⟩ := List.exists_mem_of_ne_nil _ hne
      have hall : (whereOperators.all fun o => o.1.all fun c => !isLiteralChar c) =
        true := by decide
      have hnone := List.all_eq_true.mp (List.all_eq_true.mp hall o (Filter.mem_of_earlier ho)) c hc
      rw [hchars c (hinner.subset hc)] at hnone
      cases hnone
    · rw [hs] at hchars
      exact absurd (hchars '\'' List.mem_cons_self) (by decide)

/-- A string that is cut off is not read, be it by the end of the clause or by an AND. -/
theorem Filter.not_reads_string {s z : List Char} (hs : f.literal = .string s)
    (hz : z.length ≤ s.length ∨
      ∃ a b, z = a ++ (between "AND".toList ++ b) ∧ a.length ≤ s.length) (cs : List Condition) :
    parseSimpleWhere (f.upToValue ('\'' :: z)) ≠ some (f.condition :: cs) := by
  have hok : (Literal.string s).Ok := hs ▸ f.ok
  obtain ⟨piece, rest, hsplit, hpre, hoccur⟩ :=
    split_eq_cons (p := between "AND".toList) (List.cons_ne_nil _ _) z
  have hlength : piece.length ≤ s.length := by
    obtain hz | ⟨a, b, hz, ha⟩ := hz
    · exact hpre.length_le.trans hz
    · exact (hoccur a b hz).length_le.trans ha
  have hclear : Clear id ["AND".toList] (f.front ++ ['\'']) z :=
    clear_append.mpr ⟨marker_and.clear_front f (.inl (by decide)),
      clear_cons.mpr ⟨not_begins_of_ne (by decide), clear_nil⟩⟩
  have hpieces : split (between "AND".toList) (f.upToValue ('\'' :: z)) =
      f.upToValue ('\'' :: piece) :: rest := by
    have happend : ∀ z, f.upToValue ('\'' :: z) = (f.front ++ ['\'']) ++ z := by
      intro z
      simp [Filter.upToValue_eq]
    rw [happend, split_before hclear.firstAfter_id, hsplit, happend, List.modifyHead_cons]
  rw [parseSimpleWhere_eq, hpieces]
  refine Filter.not_reads (by decide) ?_ cs
  rw [hs, trim_cons (by decide)]
  exact conditionValue_short hok.1 ((List.rdropWhile_prefix _ _).length_le.trans hlength)

/-- A literal that another word comes after is not read. -/
theorem Filter.not_reads_longer {c : Char} {w z : List Char} (hc : isWhitespace c = false)
    (hclear : Clear id ["AND".toList] (f.text ++ ' ' :: c :: w) z) (cs : List Condition) :
    parseSimpleWhere (f.text ++ ' ' :: c :: (w ++ z)) ≠ some (f.condition :: cs) := by
  obtain ⟨piece, rest, hsplit, -, -⟩ :=
    split_eq_cons (p := between "AND".toList) (List.cons_ne_nil _ _) z
  have hpieces : split (between "AND".toList) (f.text ++ ' ' :: c :: (w ++ z)) =
      f.upToValue (f.literal.text ++ ' ' :: c :: (w ++ piece)) :: rest := by
    have happend : ∀ z, f.text ++ ' ' :: c :: (w ++ z) = (f.text ++ ' ' :: c :: w) ++ z := by simp
    rw [happend, split_before hclear.firstAfter_id, hsplit, List.modifyHead_cons, ← happend]
    simp [Filter.text, Filter.upToValue]
  rw [parseSimpleWhere_eq, hpieces]
  obtain ⟨d, rest', hd, hspace, -⟩ := f.literal.exists_head
  rw [hd, List.cons_append]
  refine Filter.not_reads hspace ?_ cs
  have htrim : trim (d :: (rest' ++ ' ' :: c :: (w ++ piece))) =
      f.literal.text ++ ' ' :: trim (c :: (w ++ piece)) := by
    have hshift : rest' ++ ' ' :: c :: (w ++ piece) = (rest' ++ [' ']) ++ c :: (w ++ piece) := by
      simp
    rw [hshift, trim_append hspace hc, hd]
    simp
  rw [htrim]
  exact Literal.conditionValue_append f.ok List.mem_cons_self

/-- A condition that no keyword is in is read back when no earlier operator is in it. -/
theorem Filter.reads_text (parts : List (List Char)) (cs : List Condition) :
    parseParts (f.text :: parts) = some (f.condition :: cs) ↔
      (∀ s, f.literal = .string s → ∀ o ∈ f.earlier, ¬ o.1 <:+: s) ∧
          parseParts parts = some cs := by
  obtain ⟨d, rest, hd, hspace, -⟩ := f.literal.exists_head
  have hreads : parseParts (f.upToValue (d :: rest) :: parts) = some (f.condition :: cs) ↔ _ :=
    Filter.reads_iff hspace cs
  rw [← hd, f.literal.trim_text, and_iff_left (Literal.conditionValue_text f.ok),
    Filter.operators_iff] at hreads
  exact hreads

end

/-! ### The clause -/

/-- The text of a clause up to a LIMIT or METRIC in it, trimmed. -/
def clauseRead (tail t : List Char) : List Char := trim (upTo Char.toUpper endKeywords tail t)

/-- No string of the condition has one of the keywords in it. -/
def Filter.Free (f : Filter) (φ : Char → Char) (keywords : List (List Char)) : Prop :=
  ∀ s, f.literal = .string s → ∀ keyword ∈ keywords, ¬ between keyword <:+: s.map φ

section

variable {f g : Filter} {j : Joiner} {tail : List Char} {rest : List (Joiner × Filter)}

theorem Filter.readBack_iff : f.ReadBack ↔
    (∀ s, f.literal = .string s → ∀ o ∈ f.earlier, ¬ o.1 <:+: s) ∧ f.Free id ["AND".toList] ∧
      f.Free Char.toUpper endKeywords := by
  unfold Filter.ReadBack Filter.Free
  simp only [List.forall_mem_singleton, List.map_id]
  exact ⟨fun h => ⟨fun s hs => (h s hs).1, fun s hs => (h s hs).2.1, fun s hs => (h s hs).2.2⟩,
    fun h s hs => ⟨h.1 s hs, h.2.1 s hs, h.2.2 s hs⟩⟩

theorem Marker.clear_text {φ : Char → Char} {keywords : List (List Char)} (h : Marker φ keywords)
    (hf : f.Free φ keywords) (b : List Char) : Clear φ keywords f.text b := by
  obtain ⟨c, rest, hc, -, hhead⟩ := f.literal.exists_head
  rw [Filter.text_eq, Filter.upToValue_eq, clear_append]
  refine ⟨?_, h.clear_literal hf⟩
  rw [hc, List.cons_append]
  exact h.clear_front f hhead

/-- The text of a condition in front of another text. -/
theorem Filter.text_append (z : List Char) : f.text ++ z = f.upToValue (f.literal.text ++ z) := by
  simp [Filter.text, Filter.upToValue]

theorem Filter.trim_text_append {c : Char} (hc : isWhitespace c = false) (w z : List Char) :
    trim (f.text ++ (w ++ c :: z)) = f.text ++ (w ++ trim (c :: z)) := by
  obtain ⟨d, rest, hd, hspace, -⟩ := f.literal.exists_head
  rw [Filter.text_append, Filter.text_append, hd, List.cons_append, Filter.trim_upToValue hspace,
    ← List.append_assoc, trim_append hspace hc]
  simp

/-- A string with one of the keywords in it is not read. -/
theorem Filter.not_reads_of_not_free (z : List Char)
    (h : ¬ (f.Free id ["AND".toList] ∧ f.Free Char.toUpper endKeywords)) (cs : List Condition) :
    parseSimpleWhere (clauseRead tail (f.text ++ z)) ≠ some (f.condition :: cs) := by
  obtain ⟨s, hs⟩ : ∃ s, f.literal = .string s := by
    by_contra hnone
    push Not at hnone
    exact h ⟨fun s hs => absurd hs (hnone s), fun s hs => absurd hs (hnone s)⟩
  have happend : ∀ z, f.text ++ z = (f.front ++ ['\'']) ++ (s ++ '\'' :: z) := by
    intro z
    rw [Filter.text_append, Filter.upToValue_eq, hs]
    simp [Literal.text]
  have hfront : ∀ b, Clear Char.toUpper endKeywords (f.front ++ ['\'']) b := fun b =>
    clear_append.mpr ⟨marker_end.clear_front f (.inl (by decide)),
      clear_cons.mpr ⟨not_begins_of_ne (by decide), clear_nil⟩⟩
  have hquote : ∀ z, (f.front ++ ['\'']) ++ z = f.upToValue ('\'' :: z) := by
    intro z
    simp [Filter.upToValue_eq]
  by_cases hend : Clear Char.toUpper endKeywords s ('\'' :: z ++ tail)
  · -- The string is whole, and there is an AND in it.
    obtain ⟨a, b, hand⟩ : between "AND".toList <:+: s := by
      by_contra hnone
      refine h ⟨fun s' hs' keyword hkeyword => ?_, fun s' hs' keyword hkeyword hinner => ?_⟩
      · obtain rfl : s = s' := Literal.string.inj (hs.symm.trans hs')
        obtain rfl := List.mem_singleton.mp hkeyword
        rwa [List.map_id]
      · obtain rfl : s = s' := Literal.string.inj (hs.symm.trans hs')
        exact not_clear_of_inside hkeyword hinner hend
    have hread : clauseRead tail (f.text ++ z) =
        f.upToValue ('\'' :: (s ++ trim ('\'' :: upTo Char.toUpper endKeywords tail z))) := by
      have hlast : upTo Char.toUpper endKeywords tail ('\'' :: z) =
          '\'' :: upTo Char.toUpper endKeywords tail z :=
        if_neg (not_begins_of_ne (by decide))
      rw [clauseRead, happend, upTo_append (hfront _), upTo_append hend, hlast, hquote,
        Filter.trim_upToValue (by decide), trim_append (by decide) (by decide)]
    rw [hread]
    generalize trim ('\'' :: upTo Char.toUpper endKeywords tail z) = back
    refine Filter.not_reads_string hs (.inr ⟨a, b ++ back, ?_, ?_⟩) cs
    · rw [← hand, List.append_assoc, List.append_assoc]
    · rw [← hand, List.length_append, List.length_append]
      omega
  · -- The clause ends in the string.
    obtain ⟨x, y, hx, hy, hcut⟩ := upTo_of_not_clear hend
    have hread : clauseRead tail (f.text ++ z) =
        f.upToValue ('\'' :: x.rdropWhile isWhitespace) := by
      rw [clauseRead, happend, upTo_append (hfront _), hcut, hquote,
        Filter.trim_upToValue (by decide), trim_cons (by decide)]
    rw [hread]
    refine Filter.not_reads_string hs (.inl ?_) cs
    rw [hx, List.length_append]
    exact (List.rdropWhile_prefix _ _).length_le.trans (Nat.le_add_right _ _)

/-- A joiner is made of letters. -/
theorem Joiner.isName (j : Joiner) : IsName j.text := by
  refine ⟨fun hnil => ?_, fun c hc => ?_⟩
  · have hand := j.isAnd
    rw [hnil] at hand
    cases hand
  · have hmem : c.toUpper ∈ j.text.map Char.toUpper := List.mem_map.mpr ⟨c, hc, rfl⟩
    rw [j.isAnd] at hmem
    have halpha : c.toUpper.isAlpha := List.all_eq_true.mp (by decide) _ hmem
    rw [Char.isAlpha_toUpper_eq_isAlpha] at halpha
    simp [isNameChar, Char.isAlphanum, halpha]

/-- What is read of conditions whose first has no keyword in it. -/
theorem clauseRead_cons (hf : f.Free Char.toUpper endKeywords) (z : List Char) :
    upTo Char.toUpper endKeywords tail (f.text ++ ' ' :: (j.text ++ ' ' :: (g.column ++ z))) =
      f.text ++ ' ' :: (j.text ++
        if Begins Char.toUpper endKeywords (' ' :: (g.column ++ (z ++ tail))) then []
        else ' ' :: (g.column ++ upTo Char.toUpper endKeywords tail z)) := by
  have hjoiner : ¬ Begins Char.toUpper endKeywords
      (' ' :: (j.text ++ ' ' :: (g.column ++ z) ++ tail)) := by
    rw [List.append_assoc, List.cons_append]
    rw [begins_word (by decide) (fun keyword hkeyword => (marker_end.words keyword hkeyword).1)
      fun c hc hblank => j.isName.blank_notMem ((toUpper_eq_blank c).mp hblank ▸ hc), j.isAnd]
    decide
  rw [upTo_append (marker_end.clear_text hf _), upTo, if_neg hjoiner,
    upTo_append (marker_end.clear_of_no_blank j.isName.blank_notMem), upTo, List.append_assoc]
  split_ifs
  · rfl
  · rw [upTo_append (marker_end.clear_of_no_blank g.name.blank_notMem)]

theorem roundTrips_cons_cons {i : Joiner} : RoundTrips ((i, f) :: (j, g) :: rest) ↔
    (j.text = "AND".toList ∧ g.column.map Char.toUpper ∉ endKeywords) ∧ f.ReadBack ∧
      RoundTrips ((j, g) :: rest) := by
  constructor
  · intro h
    obtain ⟨hj, hjoiners⟩ := List.forall_mem_cons.mp h.joiners
    obtain ⟨hg, hcolumns⟩ := List.forall_mem_cons.mp h.columns
    obtain ⟨hf, hliterals⟩ := List.forall_mem_cons.mp h.literals
    exact ⟨⟨hj, hg⟩, hf, hjoiners, hcolumns, hliterals⟩
  · rintro ⟨⟨hj, hg⟩, hf, hjoiners, hcolumns, hliterals⟩
    exact ⟨List.forall_mem_cons.mpr ⟨hj, hjoiners⟩, List.forall_mem_cons.mpr ⟨hg, hcolumns⟩,
      List.forall_mem_cons.mpr ⟨hf, hliterals⟩⟩

theorem roundTrips_singleton {i : Joiner} : RoundTrips [(i, f)] ↔ f.ReadBack :=
  ⟨fun h => h.literals _ (List.mem_singleton_self _), fun h =>
    ⟨fun _ hc => absurd hc List.not_mem_nil, fun _ hc => absurd hc List.not_mem_nil,
      List.forall_mem_singleton.mpr h⟩⟩

/-- A single condition. -/
theorem Filter.reads_single (hand : f.Free id ["AND".toList])
    (hend : f.Free Char.toUpper endKeywords) :
    parseSimpleWhere (clauseRead tail f.text) = some [f.condition] ↔
      ∀ s, f.literal = .string s → ∀ o ∈ f.earlier, ¬ o.1 <:+: s := by
  obtain ⟨c, rest, hc, hspace, -⟩ := f.literal.exists_head
  have hcut : upTo Char.toUpper endKeywords tail f.text = f.text := by
    have happend := upTo_append (t := []) (marker_end.clear_text hend ([] ++ tail))
    rwa [List.append_nil, upTo, List.append_nil] at happend
  have htrim : trim f.text = f.text := by
    have htrim := Filter.trim_upToValue (f := f) hspace rest
    rwa [← hc, f.literal.trim_text] at htrim
  rw [clauseRead, hcut, htrim, parseSimpleWhere_eq,
    split_of_first (marker_and.clear_text hand []).firstAfter_id, Filter.reads_text]
  exact and_iff_left rfl

/-- A condition and those after it. -/
theorem Filter.reads_cons (hand : f.Free id ["AND".toList]) (hend : f.Free Char.toUpper endKeywords)
    (z : List Char) (cs : List Condition) :
    parseSimpleWhere
        (clauseRead tail (f.text ++ ' ' :: (j.text ++ ' ' :: (g.column ++ ' ' :: z)))) =
          some (f.condition :: cs) ↔
      (j.text = "AND".toList ∧ g.column.map Char.toUpper ∉ endKeywords) ∧
        (∀ s, f.literal = .string s → ∀ o ∈ f.earlier, ¬ o.1 <:+: s) ∧
          parseSimpleWhere (clauseRead tail (g.column ++ ' ' :: z)) = some cs := by
  obtain ⟨c, w, hj⟩ := List.exists_cons_of_ne_nil j.isName.1
  have hspace := isWhitespace_of_isNameChar (j.isName.2 c (hj ▸ List.mem_cons_self))
  obtain ⟨d, column, hg⟩ := List.exists_cons_of_ne_nil g.name.1
  have hd := isWhitespace_of_isNameChar (g.name.2 d (hg ▸ List.mem_cons_self))
  have hcolumn : Begins Char.toUpper endKeywords (' ' :: (g.column ++ (' ' :: z ++ tail))) ↔
      g.column.map Char.toUpper ∈ endKeywords :=
    begins_word (by decide) (fun keyword hkeyword => (marker_end.words keyword hkeyword).1)
      fun c hc hblank => g.name.blank_notMem ((toUpper_eq_blank c).mp hblank ▸ hc)
  have hclear : ∀ b, ¬ Begins id ["AND".toList] (' ' :: (c :: w ++ b)) →
      Clear id ["AND".toList] (f.text ++ ' ' :: c :: w) b := fun b hbegins =>
    clear_append.mpr ⟨marker_and.clear_text hand _, clear_cons.mpr ⟨hbegins,
      marker_and.clear_of_no_blank (hj ▸ j.isName.blank_notMem)⟩⟩
  by_cases hkeyword : g.column.map Char.toUpper ∈ endKeywords
  · -- The clause ends before the column.
    refine iff_of_false ?_ fun h => h.1.2 hkeyword
    have hread : clauseRead tail (f.text ++ ' ' :: (j.text ++ ' ' :: (g.column ++ ' ' :: z))) =
        f.text ++ ' ' :: c :: (w ++ []) := by
      have htrim := Filter.trim_text_append (f := f) hspace [' '] w
      rw [← hj, j.isName.trim_eq, hj] at htrim
      rw [clauseRead, clauseRead_cons hend, if_pos (hcolumn.mpr hkeyword), hj]
      simpa using htrim
    rw [hread]
    refine Filter.not_reads_longer hspace (hclear [] fun hbegins => ?_) cs
    obtain ⟨keyword, -, hpre⟩ := hbegins
    rw [← hj, List.append_nil, List.map_id, between, List.cons_prefix_cons] at hpre
    exact j.isName.blank_notMem (hpre.2.subset
      (List.mem_append_right _ (List.mem_singleton_self _)))
  · have hread : clauseRead tail (f.text ++ ' ' :: (j.text ++ ' ' :: (g.column ++ ' ' :: z))) =
        f.text ++ ' ' :: (j.text ++ ' ' :: clauseRead tail (g.column ++ ' ' :: z)) := by
      have hcut : upTo Char.toUpper endKeywords tail (g.column ++ ' ' :: z) =
          g.column ++ upTo Char.toUpper endKeywords tail (' ' :: z) :=
        upTo_append (marker_end.clear_of_no_blank g.name.blank_notMem)
      have htrim := fun t => Filter.trim_text_append (f := f) hd (' ' :: (j.text ++ [' ']))
        (column ++ t)
      rw [clauseRead, clauseRead_cons hend, if_neg (mt hcolumn.mp hkeyword), clauseRead, hcut, hg]
      simpa using htrim _
    rw [hread]
    by_cases hjand : j.text = "AND".toList
    · have hpieces : split (between "AND".toList)
          (f.text ++ ' ' :: (j.text ++ ' ' :: clauseRead tail (g.column ++ ' ' :: z))) =
            f.text :: split (between "AND".toList) (clauseRead tail (g.column ++ ' ' :: z)) := by
        have happend : ∀ t, f.text ++ ' ' :: (j.text ++ ' ' :: t) =
            f.text ++ (between "AND".toList ++ t) := by
          intro t
          rw [hjand]
          simp [between]
        rw [happend]
        exact split_append (List.cons_ne_nil _ _) (marker_and.clear_text hand _).firstAfter_id
      rw [parseSimpleWhere_eq, hpieces, Filter.reads_text, ← parseSimpleWhere_eq]
      exact (and_iff_right ⟨hjand, hkeyword⟩).symm
    · refine iff_of_false ?_ fun h => hjand h.1.1
      rw [hj, List.cons_append]
      refine Filter.not_reads_longer hspace (hclear _ fun hbegins => hjand ?_) cs
      have hword := (begins_word rfl (fun keyword hkeyword => (marker_and.words keyword hkeyword).1)
        fun c hc hblank => j.isName.blank_notMem (by rwa [hj, ← show c = ' ' from hblank])).mp
          hbegins
      rwa [List.map_id, List.mem_singleton, ← hj] at hword

/-- Conditions are read back exactly when they are such that they round-trip. -/
theorem parse_clause_iff (tail : List Char) (conditions : List (Joiner × Filter)) :
    parseSimpleWhere (clauseRead tail (whereText conditions)) =
        some (conditions.map fun c => c.2.condition) ↔
      RoundTrips conditions := by
  induction conditions with
  | nil =>
      have hnil : ∀ {p : Joiner × Filter → Prop}, ∀ c ∈ ([] : List (Joiner × Filter)), p c :=
        fun c hc => absurd hc List.not_mem_nil
      exact iff_of_true rfl ⟨hnil, hnil, hnil⟩
  | cons first rest ih =>
      obtain ⟨i, f⟩ := first
      rw [List.map_cons]
      by_cases hfree : f.Free id ["AND".toList] ∧ f.Free Char.toUpper endKeywords
      · obtain ⟨hand, hend⟩ := hfree
        cases rest with
        | nil =>
            have htext : whereText [(i, f)] = f.text := List.append_nil _
            rw [htext, roundTrips_singleton, Filter.readBack_iff, and_iff_left ⟨hand, hend⟩]
            exact Filter.reads_single hand hend
        | cons second rest =>
            obtain ⟨j, g⟩ := second
            have htext : whereText ((i, f) :: (j, g) :: rest) =
                f.text ++ ' ' :: (j.text ++ ' ' :: whereText ((j, g) :: rest)) := by
              simp [whereText]
            have hsecond : whereText ((j, g) :: rest) = g.column ++ ' ' ::
                (g.operator.1 ++ ' ' :: g.literal.text ++ rest.flatMap fun (j, g) =>
                  ' ' :: (j.text ++ ' ' :: g.text)) := by
              simp [whereText, Filter.text]
            rw [htext, hsecond, Filter.reads_cons hand hend, ← hsecond, ih, roundTrips_cons_cons,
              Filter.readBack_iff, and_iff_left (show _ ∧ _ from ⟨hand, hend⟩)]
      · refine iff_of_false (Filter.not_reads_of_not_free _ hfree _) fun h => hfree ?_
        exact (Filter.readBack_iff.mp (h.literals _ List.mem_cons_self)).2

end

end AresaDb.Query
