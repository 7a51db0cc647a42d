import AresaDb.Query.VectorFilters

/-! # Vector searches as text

A VECTOR SEARCH statement is its head, up to the vector, a WHERE clause, and a tail that is empty or
begins with a LIMIT or METRIC.  The parser finds the clause and reads the filters in it, whatever
names and numbers the head has (`filters_round_trip_iff`). -/

namespace AresaDb.Query

open AresaDb.Store Text

/-! ### Statements -/

/-- The characters of a list of numbers. -/
def isVectorChar (c : Char) : Bool := c.isDigit || c ∈ ['+', '-', '.', 'e', 'E', ',', ' ']

/-- The names and the vector of a statement; WHERE is no name, and the vector has a number. -/
structure SearchHead where
  table : List Char
  field : List Char
  vector : List Char
  table_name : IsName table
  field_name : IsName field
  table_ne : table.map Char.toUpper ≠ "WHERE".toList
  field_ne : field.map Char.toUpper ≠ "WHERE".toList
  vector_chars : ∀ c ∈ vector, isVectorChar c
  number : vectorComponents vector ≠ []

/-- What comes before the bracket of the vector. -/
def SearchHead.names (h : SearchHead) : List Char :=
  "VECTOR".toList ++ ' ' :: ("SEARCH".toList ++ ' ' :: (h.table ++ ' ' :: ("FIELD".toList ++
    ' ' :: (h.field ++ ' ' :: ("FOR".toList ++ [' '])))))

/-- Stated, since the literals make the equation that `simp` would derive slow. -/
theorem SearchHead.names_eq (h : SearchHead) : h.names =
    "VECTOR".toList ++ ' ' :: ("SEARCH".toList ++ ' ' :: (h.table ++ ' ' :: ("FIELD".toList ++
      ' ' :: (h.field ++ ' ' :: ("FOR".toList ++ [' ']))))) := rfl

def SearchHead.text (h : SearchHead) : List Char := h.names ++ '[' :: (h.vector ++ [']'])

/-- The end of a statement. -/
structure SearchTail where
  text : List Char
  ascii : Ascii text
  begins : text = [] ∨ Begins Char.toUpper endKeywords text

/-- `<head> WHERE <conditions><tail>` -/
def searchText (head : SearchHead) (conditions : List (Joiner × Filter)) (tail : SearchTail) :
    List Char :=
  head.text ++ (between "WHERE".toList ++ (whereText conditions ++ tail.text))

/-- The filters of a vector search that has been read. -/
def filtersRead (r : Option (Option ParsedQuery)) : Option (List Condition) :=
  r.bind fun q => q.bind fun q => q.vectorSearch.map VectorSearchParams.filters

/-! ### The places of the clause -/

section

variable {C : Casing} {head w tail after : List Char} {start : ℕ}

theorem min_places {o o' : Option ℕ} {n d : ℕ} (hn : o = some n ∨ o' = some n)
    (ho : ∀ m, o = some m → n ≤ m) (ho' : ∀ m, o' = some m → n ≤ m) :
    ((o.map (start + ·)).toList ++ (o'.map (start + ·)).toList).min?.getD d = start + n := by
  cases o with
  | none =>
      obtain rfl : o' = some n := by simpa using hn
      rfl
  | some m =>
      have hm := ho m rfl
      cases o' with
      | none =>
          obtain rfl : m = n := by simpa using hn
          rfl
      | some m' =>
          have hm' := ho' m' rfl
          simp only [Option.some.injEq] at hn
          simp only [Option.map_some, Option.toList_some, List.singleton_append, List.min?_cons,
            List.min?_nil, Option.elim_some, Option.elim_none, Option.getD_some]
          omega

theorem whereEnd_eq (sql after : List Char) (start : ℕ) : whereEnd sql after start =
    (((find (between "LIMIT".toList) after).map (start + ·)).toList ++
      ((find (between "METRIC".toList) after).map (start + ·)).toList).min?.getD (size sql) := by
  have hlimit : " LIMIT ".toList = between "LIMIT".toList := rfl
  have hmetric : " METRIC ".toList = between "METRIC".toList := rfl
  unfold whereEnd
  rw [List.filterMap_cons, List.filterMap_cons, List.filterMap_nil, hlimit, hmetric]
  cases find (between "LIMIT".toList) after <;> cases find (between "METRIC".toList) after <;> rfl

/-- The clause ends where the first of the keywords begins, or at the end of the text. -/
theorem whereEnd_clause (hascii : Ascii w)
    (htail : tail = [] ∨ Begins Char.toUpper endKeywords tail) :
    whereEnd (head ++ (w ++ tail)) ((w ++ tail).map Char.toUpper) (size head) =
      size head + size (upTo Char.toUpper endKeywords tail w) := by
  obtain ⟨rest, hw, hclear, hrest⟩ := upTo_spec Char.toUpper endKeywords tail w
  generalize upTo Char.toUpper endKeywords tail w = x at hw hclear ⊢
  subst hw
  have hsize : size (x.map Char.toUpper) = size x := (ascii_append.mp hascii).1.size_map
  rw [whereEnd_eq, List.append_assoc, List.map_append]
  by_cases hbegins : Begins Char.toUpper endKeywords (rest ++ tail)
  · have hle : ∀ keyword ∈ endKeywords, ∀ m, find (between keyword)
        (x.map Char.toUpper ++ (rest ++ tail).map Char.toUpper) = some m → size x ≤ m := by
      intro keyword hkeyword m hm
      rw [← hsize]
      exact le_of_find (hclear.firstAfter hkeyword) hm
    have hfound : ∀ keyword ∈ endKeywords, between keyword <+: (rest ++ tail).map Char.toUpper →
        find (between keyword) (x.map Char.toUpper ++ (rest ++ tail).map Char.toUpper) =
          some (size x) := by
      rintro keyword hkeyword ⟨z, hz⟩
      have hfirst := hclear.firstAfter hkeyword
      rw [← hz] at hfirst ⊢
      rw [find_append hfirst, hsize]
    refine min_places ?_ (hle _ (by decide)) (hle _ (by decide))
    obtain ⟨keyword, hkeyword, hpre⟩ := hbegins
    obtain rfl | rfl : keyword = "LIMIT".toList ∨ keyword = "METRIC".toList := by
      simpa [endKeywords] using hkeyword
    · exact .inl (hfound _ hkeyword hpre)
    · exact .inr (hfound _ hkeyword hpre)
  · -- There is no tail, and the clause is whole.
    obtain rfl : rest = [] := hrest.resolve_right hbegins
    obtain rfl : tail = [] := htail.resolve_right hbegins
    have hnone : ∀ keyword ∈ endKeywords, find (between keyword)
        (x.map Char.toUpper ++ ([] ++ [] : List Char).map Char.toUpper) = none := by
      intro keyword hkeyword
      have hfirst := hclear.firstAfter hkeyword
      rw [List.append_nil, List.map_nil, List.append_nil]
      exact (find_eq_none (List.cons_ne_nil _ _)).mpr hfirst
    rw [hnone _ (by decide), hnone _ (by decide)]
    simp

/-- The filters are read in the clause, if no WHERE comes before it. -/
theorem parseVectorWhere_eq (hC : C.Documented) (hhead : Ascii head) (hw : Ascii w)
    (htailAscii : Ascii tail) (htail : tail = [] ∨ Begins Char.toUpper endKeywords tail)
    (hfirst : Clear Char.toUpper ["WHERE".toList] head (between "WHERE".toList ++ (w ++ tail))) :
    parseVectorWhere C (head ++ (between "WHERE".toList ++ (w ++ tail))) =
      parseSimpleWhere (clauseRead tail w) := by
  have hkeyword : Ascii (between "WHERE".toList) := ascii_of_all (by decide)
  have hupper : C.toUppercase (head ++ (between "WHERE".toList ++ (w ++ tail))) =
      head.map Char.toUpper ++ (between "WHERE".toList ++ (w ++ tail).map Char.toUpper) := by
    rw [hC.toUppercase_ascii (ascii_append.mpr ⟨hhead, ascii_append.mpr
      ⟨hkeyword, ascii_append.mpr ⟨hw, htailAscii⟩⟩⟩), List.map_append, List.map_append]
    rfl
  have hfind : find " WHERE ".toList
      (head.map Char.toUpper ++ (between "WHERE".toList ++ (w ++ tail).map Char.toUpper)) =
        some (size head) := by
    have hfirst := hfirst.firstAfter (List.mem_singleton_self _)
    rw [List.map_append] at hfirst
    rw [← hhead.size_map]
    exact find_append hfirst
  have hstart : size head + 7 = size (head ++ between "WHERE".toList) := by
    rw [size_append]
    rfl
  have hafter : sliceFrom (size head + 7)
      (head.map Char.toUpper ++ (between "WHERE".toList ++ (w ++ tail).map Char.toUpper)) =
        some ((w ++ tail).map Char.toUpper) := by
    rw [hstart, size_append, ← hhead.size_map, ← size_append, ← List.append_assoc]
    exact sliceFrom_append _ _
  have hclause : slice (size head + 7)
      (whereEnd (head ++ (between "WHERE".toList ++ (w ++ tail))) ((w ++ tail).map Char.toUpper)
        (size head + 7)) (head ++ (between "WHERE".toList ++ (w ++ tail))) =
        some (upTo Char.toUpper endKeywords tail w) := by
    obtain ⟨rest, hrest, -, -⟩ := upTo_spec Char.toUpper endKeywords tail w
    rw [hstart, ← List.append_assoc, whereEnd_clause hw htail, slice_eq_some]
    refine ⟨head ++ between "WHERE".toList, rest ++ tail, ?_, rfl, rfl⟩
    conv_lhs => rw [hrest]
    simp only [List.append_assoc]
  unfold parseVectorWhere
  dsimp only
  rw [hupper, hfind]
  dsimp only
  rw [hafter, Option.bind_eq_bind, Option.bind_some, hclause, Option.bind_some]
  change (if clauseRead tail w = [] then some [] else parseSimpleWhere (clauseRead tail w)) = _
  split_ifs with hnil
  · rw [hnil]
    rfl
  · rfl

end

/-! ### Heads -/

section

variable {C : Casing} {head : SearchHead}

theorem IsName.ascii {w : List Char} (h : IsName w) : Ascii w := fun c hc => by
  have hrange := toNat_of_isNameChar (h.2 c hc)
  omega

theorem toUpper_of_isVectorChar {c : Char} (h : isVectorChar c) :
    c.toNat < 128 ∧ c.toUpper ≠ 'W' ∧ c ≠ ']' := by
  rw [isVectorChar, Bool.or_eq_true, decide_eq_true_eq] at h
  obtain hdigit | hmem := h
  · have hrange : 48 ≤ c.toNat ∧ c.toNat ≤ 57 := by
      simpa [Char.isDigit, UInt32.le_iff_toNat_le] using hdigit
    have hlower : ¬ c.isLower := by
      intro hlower
      have hletter : 97 ≤ c.toNat ∧ c.toNat ≤ 122 := by
        simpa [Char.isLower, UInt32.le_iff_toNat_le] using hlower
      omega
    rw [Char.toUpper_eq_of_not_isLower hlower]
    refine ⟨by omega, ?_, ?_⟩
    · rintro rfl
      exact absurd hdigit (by decide)
    · rintro rfl
      exact absurd hdigit (by decide)
  · have hall : (['+', '-', '.', 'e', 'E', ',', ' '].all fun c =>
        c.toNat < 128 && c.toUpper ≠ 'W' && c ≠ ']') = true := by decide
    simpa [and_assoc] using List.all_eq_true.mp hall c hmem

theorem SearchHead.ascii_names (head : SearchHead) : Ascii head.names := by
  have hkeyword : ∀ {w : List Char}, w.all (fun c => c.toNat < 128) = true → Ascii w := ascii_of_all
  unfold SearchHead.names
  simp only [ascii_append, ascii_cons]
  exact ⟨hkeyword (by decide), by decide, hkeyword (by decide), by decide, head.table_name.ascii,
    by decide, hkeyword (by decide), by decide, head.field_name.ascii, by decide,
    hkeyword (by decide), by decide, hkeyword rfl⟩

theorem SearchHead.ascii (head : SearchHead) : Ascii head.text :=
  ascii_append.mpr ⟨head.ascii_names, ascii_cons.mpr ⟨by decide, ascii_append.mpr
    ⟨fun c hc => (toUpper_of_isVectorChar (head.vector_chars c hc)).1, ascii_of_all (by decide)⟩⟩⟩

/-- A word that is not WHERE, between blanks. -/
theorem clear_word {w z b : List Char} (hw : ' ' ∉ w) (hne : w.map Char.toUpper ≠ "WHERE".toList)
    (hz : Clear Char.toUpper ["WHERE".toList] (' ' :: z) b) :
    Clear Char.toUpper ["WHERE".toList] (' ' :: (w ++ ' ' :: z)) b := by
  have hblank : ∀ c ∈ w, c.toUpper ≠ ' ' := fun c hc h => hw ((toUpper_eq_blank c).mp h ▸ hc)
  refine clear_cons.mpr ⟨?_, clear_append.mpr ⟨clear_of_no_blank hblank, hz⟩⟩
  rw [List.append_assoc, List.cons_append, begins_word (by decide) (by decide) hblank,
    List.mem_singleton]
  exact hne

/-- A text without a W. -/
theorem clear_of_no_w {v b : List Char} {d : Char} (hv : ∀ c ∈ v, c.toUpper ≠ 'W')
    (hd : d.toUpper ≠ 'W') : Clear Char.toUpper ["WHERE".toList] v (d :: b) := by
  have hhead : ∀ {c d : Char} {t : List Char}, c.toUpper ≠ 'W' →
      ¬ Begins Char.toUpper ["WHERE".toList] (d :: c :: t) := fun hc =>
    not_begins_of_head fun keyword hkeyword => by
      obtain rfl := List.mem_singleton.mp hkeyword
      exact ⟨_, _, rfl, hc.symm⟩
  induction v with
  | nil => exact clear_nil
  | cons c v ih =>
      obtain ⟨-, hv⟩ := List.forall_mem_cons.mp hv
      refine clear_cons.mpr ⟨?_, ih hv⟩
      cases v with
      | nil => exact hhead hd
      | cons c' v => exact hhead (hv c' List.mem_cons_self)

/-- No WHERE between blanks begins in a head. -/
theorem SearchHead.clear (head : SearchHead) (t : List Char) :
    Clear Char.toUpper ["WHERE".toList] head.text (between "WHERE".toList ++ t) := by
  have hbracket : ∀ b, Clear Char.toUpper ["WHERE".toList] (' ' :: '[' :: (head.vector ++ [']']))
      (' ' :: b) := by
    intro b
    rw [← List.cons_append, ← List.cons_append, clear_append]
    refine ⟨clear_of_no_w ?_ (by decide), clear_of_no_w ?_ (by decide)⟩
    · refine List.forall_mem_cons.mpr ⟨by decide, List.forall_mem_cons.mpr ⟨by decide, ?_⟩⟩
      exact fun c hc => (toUpper_of_isVectorChar (head.vector_chars c hc)).2.1
    · exact List.forall_mem_singleton.mpr (by decide)
  have htext : head.text = "VECTOR".toList ++ ' ' :: ("SEARCH".toList ++ ' ' :: (head.table ++
      ' ' :: ("FIELD".toList ++ ' ' :: (head.field ++ ' ' :: ("FOR".toList ++
        ' ' :: '[' :: (head.vector ++ [']'])))))) := by
    simp [SearchHead.text, SearchHead.names_eq]
  rw [htext]
  have hvector : ' ' ∉ "VECTOR".toList := by decide
  refine clear_append.mpr ⟨clear_of_no_blank fun c hc h =>
    hvector ((toUpper_eq_blank c).mp h ▸ hc), ?_⟩
  exact clear_word (by decide) (by decide) <|
    clear_word head.table_name.blank_notMem head.table_ne <|
    clear_word (by decide) (by decide) <|
    clear_word head.field_name.blank_notMem head.field_ne <|
    clear_word (by decide) (by decide) (hbracket _)

theorem SearchHead.notMem_names (head : SearchHead) {c : Char} (hname : isNameChar c = false)
    (hblank : c ≠ ' ') : c ∉ head.names := by
  have hword : ∀ {w : List Char}, (∀ d ∈ w, isNameChar d) → c ∉ w := by
    intro w hw hmem
    rw [hw c hmem] at hname
    cases hname
  have hkeyword : ∀ {w : List Char}, w.all isNameChar = true → c ∉ w := fun h =>
    hword (List.all_eq_true.mp h)
  simp only [SearchHead.names_eq, List.mem_append, List.mem_cons, List.not_mem_nil, hblank,
    or_false, false_or, not_or]
  exact ⟨hkeyword (by decide), hkeyword (by decide), hword head.table_name.2,
    hkeyword (by decide), hword head.field_name.2, hkeyword (by decide)⟩

/-- The brackets of the vector are the first ones. -/
theorem SearchHead.find_brackets (head : SearchHead) (t : List Char) :
    find ['['] (head.text ++ t) = some (size head.names) ∧
      find [']'] (head.text ++ t) = some (size head.names + 1 + size head.vector) := by
  have hopening : '[' ∉ head.names := head.notMem_names (by decide) (by decide)
  have hclosing : ']' ∉ head.names ++ '[' :: head.vector := by
    rw [List.mem_append, List.mem_cons, not_or, not_or]
    exact ⟨head.notMem_names (by decide) (by decide), by decide, fun h =>
      (toUpper_of_isVectorChar (head.vector_chars _ h)).2.2 rfl⟩
  constructor
  · have htext : head.text ++ t = head.names ++ (['['] ++ (head.vector ++ ']' :: t)) := by
      simp [SearchHead.text]
    rw [htext]
    exact find_append (firstAfter_of_notMem hopening _)
  · have htext : head.text ++ t = (head.names ++ '[' :: head.vector) ++ ([']'] ++ t) := by
      simp [SearchHead.text]
    have hsize : size (head.names ++ '[' :: head.vector) =
        size head.names + 1 + size head.vector := by
      rw [size_append, size_cons, Nat.add_assoc]
      rfl
    rw [htext, ← hsize]
    exact find_append (firstAfter_of_notMem hclosing _)

theorem SearchHead.slice_vector (head : SearchHead) (t : List Char) :
    slice (size head.names + 1) (size head.names + 1 + size head.vector) (head.text ++ t) =
      some head.vector := by
  have hsize : size (head.names ++ ['[']) = size head.names + 1 := size_append _ _
  rw [slice_eq_some]
  exact ⟨head.names ++ ['['], ']' :: t, by simp [SearchHead.text], hsize, by rw [hsize]⟩

theorem IsName.no_whitespace {w : List Char} (h : IsName w) : ∀ c ∈ w, isWhitespace c = false :=
  fun c hc => isWhitespace_of_isNameChar (h.2 c hc)

/-- The words of a statement, up to its vector. -/
theorem SearchHead.words_text (head : SearchHead) (t : List Char) : ∃ rest,
    words (head.text ++ t) = "VECTOR".toList :: "SEARCH".toList :: head.table :: "FIELD".toList ::
      head.field :: "FOR".toList :: rest := by
  have htext : head.text ++ t = "VECTOR".toList ++ ' ' :: ("SEARCH".toList ++ ' ' :: (head.table ++
      ' ' :: ("FIELD".toList ++ ' ' :: (head.field ++ ' ' :: ("FOR".toList ++
        ' ' :: ('[' :: (head.vector ++ ']' :: t))))))) := by
    simp [SearchHead.text, SearchHead.names_eq]
  have hkeyword : ∀ {w : List Char}, w.all (fun c => !isWhitespace c) = true →
      ∀ c ∈ w, isWhitespace c = false := by
    intro w hw c hc
    simpa using List.all_eq_true.mp hw c hc
  refine ⟨words ('[' :: (head.vector ++ ']' :: t)), ?_⟩
  rw [htext, words_cons (by decide) (hkeyword (by decide)),
    words_cons (by decide) (hkeyword (by decide)),
    words_cons head.table_name.1 head.table_name.no_whitespace,
    words_cons (by decide) (hkeyword (by decide)),
    words_cons head.field_name.1 head.field_name.no_whitespace,
    words_cons (by decide) (hkeyword (by decide))]

/-- There is a word after a keyword that is among the words but the last. -/
theorem wordAfter_isSome {keyword : String} {parts : List (List Char)} {word : List Char} {i : ℕ}
    (hword : parts[i]? = some word) (heq : eqIgnoreAsciiCase word keyword.toList = true)
    (hnext : (parts[i + 1]?).isSome) : (wordAfter keyword parts).isSome := by
  obtain ⟨hi, rfl⟩ := List.getElem?_eq_some_iff.mp hword
  have hle : parts.findIdx (fun part => eqIgnoreAsciiCase part keyword.toList) ≤ i := by
    by_contra hlt
    have hnot := List.not_of_lt_findIdx (Nat.lt_of_not_le hlt)
    rw [heq] at hnot
    cases hnot
  rw [isSome_getElem?] at hnext
  rw [wordAfter, isSome_getElem?]
  omega

/-- The head makes the statement a vector search, with filters. -/
theorem SearchHead.parseVectorSearch_eq (hC : C.Documented) (head : SearchHead) {t : List Char}
    (ht : Ascii t) : ∃ q : List Condition → ParsedQuery,
      (∀ filters, (q filters).vectorSearch.map VectorSearchParams.filters = some filters) ∧
        parseVectorSearch C (head.text ++ t) =
          (parseVectorWhere C (head.text ++ t)).map fun filters => some (q filters) := by
  have hcommand : "VECTOR SEARCH".toList <+: C.toUppercase (head.text ++ t) := by
    rw [hC.toUppercase_ascii (ascii_append.mpr ⟨head.ascii, ht⟩), SearchHead.text,
      SearchHead.names_eq]
    simp only [List.map_append, List.map_cons, List.append_assoc, List.cons_append]
    exact ⟨_, rfl⟩
  obtain ⟨rest, hwords⟩ := head.words_text t
  have hlength : ¬ (words (head.text ++ t)).length < 6 := by
    rw [hwords]
    simp
  have hfield : (wordAfter "FIELD" (words (head.text ++ t))).isSome := by
    rw [hwords]
    exact wordAfter_isSome (i := 3) rfl (by decide) rfl
  obtain ⟨field, hfield⟩ := Option.isSome_iff_exists.mp hfield
  obtain ⟨hopening, hclosing⟩ := head.find_brackets t
  unfold parseVectorSearch
  dsimp only
  rw [if_neg (not_or.mpr ⟨not_not.mpr hcommand, hlength⟩), hfield, hopening, hclosing]
  dsimp only
  rw [head.slice_vector, Option.bind_eq_bind, Option.bind_some, if_neg head.number]
  exact ⟨_, fun filters => rfl, Option.map_eq_bind.symm⟩

end

/-! ### The result -/

theorem Literal.ascii {l : Literal} (h : l.Ok) : Ascii l.text := by
  obtain ⟨s, rfl⟩ | ⟨-, hchars⟩ := l.text_cases
  · exact List.forall_mem_cons.mpr ⟨by decide, ascii_append.mpr
      ⟨h.2, List.forall_mem_singleton.mpr (by decide)⟩⟩
  · intro c hc
    have hrange := toNat_of_isLiteralChar (hchars c hc)
    omega

theorem Filter.ascii (f : Filter) : Ascii f.text := by
  have hoperators : (whereOperators.all fun o => o.1.all fun c => c.toNat < 128) = true := by decide
  exact ascii_append.mpr ⟨f.name.ascii, ascii_cons.mpr ⟨by decide, ascii_append.mpr
    ⟨ascii_of_all (List.all_eq_true.mp hoperators _ f.known), ascii_cons.mpr
      ⟨by decide, Literal.ascii f.ok⟩⟩⟩⟩

theorem ascii_whereText (conditions : List (Joiner × Filter)) : Ascii (whereText conditions) := by
  cases conditions with
  | nil => exact fun c hc => absurd hc List.not_mem_nil
  | cons first rest =>
      refine ascii_append.mpr ⟨first.2.ascii, fun c hc => ?_⟩
      obtain ⟨⟨j, g⟩, -, hmem⟩ := List.mem_flatMap.mp hc
      exact ascii_cons.mpr ⟨by decide, ascii_append.mpr ⟨j.isName.ascii, ascii_cons.mpr
        ⟨by decide, g.ascii⟩⟩⟩ c hmem

/-- The filters of a vector search are its conditions exactly when these round-trip. -/
theorem filters_round_trip_iff {C : Casing} (hC : C.Documented)
    (parseSql : List Char → Option (List Statement)) (head : SearchHead)
    (conditions : List (Joiner × Filter)) (tail : SearchTail) :
    filtersRead (parse C parseSql (searchText head conditions tail)) =
        some (conditions.map fun c => c.2.condition) ↔
      RoundTrips conditions := by
  have hwhere := ascii_whereText conditions
  have hclause := parseVectorWhere_eq hC head.ascii hwhere tail.ascii tail.begins (head.clear _)
  have hrest : Ascii (between "WHERE".toList ++ (whereText conditions ++ tail.text)) :=
    ascii_append.mpr ⟨ascii_of_all (by decide), ascii_append.mpr ⟨hwhere, tail.ascii⟩⟩
  obtain ⟨q, hq, hsearch⟩ := head.parseVectorSearch_eq hC hrest
  rw [← parse_clause_iff tail.text, ← hclause, parse, searchText, hsearch]
  cases parseVectorWhere C
      (head.text ++ (between "WHERE".toList ++ (whereText conditions ++ tail.text))) with
  | none => exact Iff.rfl
  | some filters =>
      change (q filters).vectorSearch.map VectorSearchParams.filters = _ ↔ _
      rw [hq]

/-- `VECTOR SEARCH docs FIELD embedding FOR [1]` -/
def sampleHead : SearchHead where
  table := "docs".toList
  field := "embedding".toList
  vector := "1".toList
  table_name := ⟨by decide, List.all_eq_true.mp (by decide)⟩
  field_name := ⟨by decide, List.all_eq_true.mp (by decide)⟩
  table_ne := by decide
  field_ne := by decide
  vector_chars := List.all_eq_true.mp (by decide)
  number := by decide +kernel

def noTail : SearchTail := ⟨[], ascii_of_all rfl, .inl rfl⟩

def plainJoiner : Joiner := ⟨"AND".toList, by decide⟩

/-- `title = '<s>'` -/
def quotedFilter (s : List Char) (h : '\'' ∉ s ∧ ∀ c ∈ s, c.toNat < 128) : Filter where
  column := "title".toList
  operator := ("=".toList, .eq)
  literal := .string s
  name := ⟨by decide, List.all_eq_true.mp (by decide)⟩
  known := by decide
  ok := h

/-- `title = 'x' AND title = 'y'` -/
def samplePair : List (Joiner × Filter) :=
  [(plainJoiner, quotedFilter "x".toList ⟨by decide, ascii_of_all (by decide)⟩),
    (plainJoiner, quotedFilter "y".toList ⟨by decide, ascii_of_all (by decide)⟩)]

theorem filters_round_trip_iff_sample : asciiCasing.Documented ∧
    whereText samplePair = "title = 'x' AND title = 'y'".toList ∧
    (filtersRead (parse asciiCasing noSql (searchText sampleHead samplePair noTail)) =
      some [⟨"title", .eq, .string "x"⟩, ⟨"title", .eq, .string "y"⟩] ↔ RoundTrips samplePair) :=
  ⟨asciiCasing_documented, by decide +kernel,
    filters_round_trip_iff asciiCasing_documented noSql sampleHead samplePair noTail⟩

/-- A condition whose string contains an AND is read as two. -/
theorem quoted_and_splits :
    ¬ ∀ (C : Casing) (parseSql : List Char → Option (List Statement)) (head : SearchHead)
      (conditions : List (Joiner × Filter)) (tail : SearchTail), C.Documented →
      filtersRead (parse C parseSql (searchText head conditions tail)) =
        some (conditions.map fun c => c.2.condition) := by
  intro h
  have hread := h asciiCasing noSql sampleHead
    [(plainJoiner, quotedFilter "x AND y = z".toList ⟨by decide, ascii_of_all (by decide)⟩)] noTail
    asciiCasing_documented
  have hlength := congrArg (Option.map List.length) hread
  revert hlength
  decide +kernel

end AresaDb.Query
