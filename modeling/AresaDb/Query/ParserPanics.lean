import AresaDb.Query.Commands

/-! # Panics of the parser

`parse` slices texts at places it has found in an upper-cased copy, or between delimiters that it
looks for one by one.  It does not panic exactly when every keyword it reads that way ends at the
boundary of a character of the text itself, the brackets of a vector are in order, the WHERE clause
of a vector search lies between two places of the text, and none of its conditions has a lone quote
for a value (`parse_no_panic_iff`).  The negation of a literal never overflows, since the numbers of
the SQL library have no sign. -/

namespace AresaDb.Query

open AresaDb.Store Text

/-! ### Keywords -/

section

variable {C : Casing} {sql t rest : List Char} {keyword : String}

/-- The keyword, if the text in upper case starts with it, ends at the boundary of a character. -/
def KeywordSafe (C : Casing) (keyword : String) (t : List Char) : Prop :=
  keyword.toList <+: C.toUppercase t → Boundary keyword.length t

/-- What follows as many bytes as a keyword has, if the text in upper case starts with it. -/
def Follows (C : Casing) (keyword : String) (t rest : List Char) : Prop :=
  keyword.toList <+: C.toUppercase t ∧
    ∃ front back, t = front ++ back ∧ size front = keyword.length ∧ rest = trim back

/-- What is left after a word. -/
def AfterWord (t rest : List Char) : Prop :=
  ∃ word back, splitOnce t = some (word, back) ∧ rest = trim back

/-- The text that a full-text search reads its FIELD in. -/
def FieldText (C : Casing) (sql t : List Char) : Prop :=
  ∃ rest, Follows C "FULLTEXT SEARCH" sql rest ∧ AfterWord rest t

/-- The text that a full-text search reads its FOR in. -/
def ForText (C : Casing) (sql t : List Char) : Prop :=
  ∃ t', FieldText C sql t' ∧ ∃ rest, Follows C "FIELD " t' rest ∧ AfterWord rest t

/-- The text that a full-text search reads its LIMIT in. -/
def LimitText (C : Casing) (sql t : List Char) : Prop :=
  ∃ t', ForText C sql t' ∧ ∃ rest, Follows C "FOR " t' rest ∧
    ∃ query, takeQuery rest = some (some (query, t))

/-- The keywords of a full-text search end at boundaries. -/
structure FulltextSafe (C : Casing) (sql : List Char) : Prop where
  fulltext : KeywordSafe C "FULLTEXT SEARCH" sql
  field : ∀ t, FieldText C sql t → KeywordSafe C "FIELD " t
  for_ : ∀ t, ForText C sql t → KeywordSafe C "FOR " t
  limit : ∀ t, LimitText C sql t → KeywordSafe C "LIMIT " t

/-- The keywords of an index command end at boundaries. -/
structure IndexSafe (C : Casing) (sql : List Char) : Prop where
  command : ∀ k ∈ indexKeywords, KeywordSafe C k.1 (trim sql)
  on : ∀ k ∈ indexKeywords, ∀ rest, Follows C k.1 (trim sql) rest → KeywordSafe C "ON " rest

theorem afterKeyword_isSome : (afterKeyword C keyword t).isSome ↔ KeywordSafe C keyword t := by
  unfold afterKeyword KeywordSafe
  split_ifs with h
  · rw [Option.isSome_map, sliceFrom_isSome, forall_prop_of_true h]
  · exact iff_of_true rfl fun h' => absurd h' h

theorem afterKeyword_eq_some :
    afterKeyword C keyword t = some (some rest) ↔ Follows C keyword t rest := by
  unfold afterKeyword Follows
  split_ifs with h
  · rw [and_iff_right h, Option.map_eq_some_iff]
    simp only [Option.some.injEq, sliceFrom_eq_some]
    constructor
    · rintro ⟨back, ⟨front, ht, hsize⟩, rfl⟩
      exact ⟨front, back, ht, hsize, rfl⟩
    · rintro ⟨front, back, ht, hsize, rfl⟩
      exact ⟨back, ⟨front, ht, hsize⟩, rfl⟩
  · exact iff_of_false (by simp) fun h' => h h'.1

theorem andThen_isSome {α β : Type} {x : Option (Option α)} {f : α → Option (Option β)} :
    (andThen x f).isSome ↔ x.isSome ∧ ∀ a, x = some (some a) → (f a).isSome := by
  obtain _ | _ | a := x <;> simp [andThen]

theorem orTry_isSome {α : Type} {x y : Option (Option α)} :
    (orTry x y).isSome ↔ x.isSome ∧ (x = some none → y.isSome) := by
  obtain _ | _ | a := x <;> simp [orTry]

/-- A text in quotes is cut at its quote. -/
theorem takeQuoted_isSome {quote : Char} (hquote : quote.utf8Size = 1) (stripped : List Char) :
    (takeQuoted quote stripped).isSome := by
  unfold takeQuoted
  cases hfind : find [quote] stripped with
  | none => rfl
  | some stop =>
      obtain ⟨a, b, -, -, hto, hfrom⟩ := slices_of_find hfind
      rw [size_cons, size_nil, hquote] at hfrom
      simp [hto, hfrom]

theorem takeQuery_isSome (rest : List Char) : (takeQuery rest).isSome := by
  unfold takeQuery
  split
  · exact takeQuoted_isSome (by decide) _
  · exact takeQuoted_isSome (by decide) _
  · obtain ⟨back, hback⟩ : ∃ back, rest = beforeWhitespace rest ++ back :=
      ⟨_, (List.takeWhile_append_dropWhile ..).symm⟩
    have hto : sliceTo (size (beforeWhitespace rest)) rest = some (beforeWhitespace rest) :=
      sliceTo_eq_some.mpr ⟨back, hback, rfl⟩
    have hfrom : sliceFrom (size (beforeWhitespace rest)) rest = some back :=
      sliceFrom_eq_some.mpr ⟨_, hback, rfl⟩
    simp [hto, hfrom]

theorem takeLimit_isSome : (takeLimit C rest).isSome ↔ KeywordSafe C "LIMIT " rest := by
  rw [takeLimit, Option.isSome_map, afterKeyword_isSome]

/-- A full-text search does not panic when its keywords end at boundaries, and only then. -/
theorem parseFulltextSearch_isSome : (parseFulltextSearch C sql).isSome ↔ FulltextSafe C sql := by
  simp only [parseFulltextSearch, andThen_isSome, Option.isSome_map, afterKeyword_isSome,
    afterKeyword_eq_some, takeLimit_isSome, takeQuery_isSome, Option.isSome_some, true_and,
    Option.some.injEq, Prod.forall]
  constructor
  · rintro ⟨hfulltext, hfield⟩
    have hfield' : ∀ t, FieldText C sql t → KeywordSafe C "FIELD " t ∧ ∀ rest,
        Follows C "FIELD " t rest → ∀ field back, splitOnce rest = some (field, back) →
          KeywordSafe C "FOR " (trim back) ∧ ∀ rest, Follows C "FOR " (trim back) rest →
            ∀ query back, takeQuery rest = some (some (query, back)) →
              KeywordSafe C "LIMIT " back := by
      rintro _ ⟨rest, hrest, target, back, hsplit, rfl⟩
      exact hfield rest hrest target back hsplit
    have hfor : ∀ t, ForText C sql t → KeywordSafe C "FOR " t ∧ ∀ rest, Follows C "FOR " t rest →
        ∀ query back, takeQuery rest = some (some (query, back)) → KeywordSafe C "LIMIT " back := by
      rintro _ ⟨t, ht, rest, hrest, field, back, hsplit, rfl⟩
      exact (hfield' t ht).2 rest hrest field back hsplit
    refine ⟨hfulltext, fun t ht => (hfield' t ht).1, fun t ht => (hfor t ht).1, ?_⟩
    rintro back ⟨t, ht, rest, hrest, query, hquery⟩
    exact (hfor t ht).2 rest hrest query back hquery
  · rintro ⟨hfulltext, hfield, hfor, hlimit⟩
    refine ⟨hfulltext, fun rest hrest target back hsplit => ?_⟩
    have ht : FieldText C sql (trim back) := ⟨rest, hrest, target, back, hsplit, rfl⟩
    refine ⟨hfield _ ht, fun rest hrest field back hsplit => ?_⟩
    have ht : ForText C sql (trim back) := ⟨_, ht, rest, hrest, field, back, hsplit, rfl⟩
    exact ⟨hfor _ ht, fun rest hrest query back hquery =>
      hlimit back ⟨_, ht, rest, hrest, query, hquery⟩⟩

theorem parseIndexTarget_isSome (operation : QueryOperation) (rest : List Char) :
    (parseIndexTarget operation rest).isSome := by
  unfold parseIndexTarget
  cases hopen : find ['('] rest with
  | none => rfl
  | some opening =>
      cases hclose : find [')'] rest with
      | none => rfl
      | some closing =>
          dsimp only
          split_ifs with hle
          · rfl
          · obtain ⟨table, _, -, -, htable, hafter⟩ := slices_of_find hopen
            obtain ⟨_, _, -, -, hbefore, -⟩ := slices_of_find hclose
            have hslice : (slice (opening + 1) closing rest).isSome :=
              slice_isSome.mpr ⟨by omega,
                sliceFrom_isSome.mp (Option.isSome_iff_exists.mpr ⟨_, hafter⟩),
                sliceTo_isSome.mp (Option.isSome_iff_exists.mpr ⟨_, hbefore⟩)⟩
            obtain ⟨field, hfield⟩ := Option.isSome_iff_exists.mp hslice
            simp only [htable, hfield, Option.bind_eq_bind, Option.bind_some]
            split_ifs <;> rfl

/-- A text starts with one of the commands at most. -/
theorem eq_of_indexKeywords {u : List Char} {k k' : String × QueryOperation}
    (hk : k ∈ indexKeywords) (hk' : k' ∈ indexKeywords) (hu : k.1.toList <+: u)
    (hu' : k'.1.toList <+: u) : k = k' := by
  have hone : ∀ k ∈ indexKeywords, ∀ k' ∈ indexKeywords, k.1.toList <+: k'.1.toList → k = k' := by
    decide
  obtain h | h := List.prefix_or_prefix_of_prefix hu hu'
  · exact hone k hk k' hk' h
  · exact (hone k' hk' k hk h).symm

/-- An index command does not panic when its keywords end at boundaries, and only then. -/
theorem parseIndexCommand_isSome : (parseIndexCommand C sql).isSome ↔ IndexSafe C sql := by
  unfold parseIndexCommand
  dsimp only
  cases hfind : indexKeywords.find? fun k => k.1.toList.isPrefixOf (C.toUppercase (trim sql)) with
  | none =>
      have hnone : ∀ k ∈ indexKeywords, ¬ k.1.toList <+: C.toUppercase (trim sql) := by
        simpa using List.find?_eq_none.mp hfind
      exact iff_of_true rfl ⟨fun k hk h => absurd h (hnone k hk),
        fun k hk rest h => absurd h.1 (hnone k hk)⟩
  | some k =>
      have hk := List.mem_of_find?_eq_some hfind
      have hpre : k.1.toList <+: C.toUppercase (trim sql) := by
        simpa using List.find?_some hfind
      simp only [andThen_isSome, afterKeyword_isSome, afterKeyword_eq_some, parseIndexTarget_isSome,
        implies_true, and_true]
      constructor
      · rintro ⟨hcommand, hon⟩
        refine ⟨fun k' hk' h => ?_, fun k' hk' rest h => ?_⟩
        · obtain rfl := eq_of_indexKeywords hk hk' hpre h
          exact hcommand h
        · obtain rfl := eq_of_indexKeywords hk hk' hpre h.1
          exact hon rest h
      · exact fun h => ⟨h.command k hk, h.on k hk⟩

end

/-! ### Conditions -/

/-- The value of the condition is a single quote, which begins and ends it. -/
def LoneQuote (part : List Char) : Prop :=
  ∃ text op idx rest, findOperator part = some (text, op, idx) ∧
    sliceFrom (idx + size text) part = some rest ∧ trim rest = ['\'']

theorem findOperator_eq_some {part text : List Char} {op : Operator} {idx : ℕ}
    (h : findOperator part = some (text, op, idx)) : find text part = some idx := by
  obtain ⟨⟨text', op'⟩, -, hfind⟩ := List.exists_of_findSome?_eq_some h
  obtain ⟨n, hn, heq⟩ := Option.map_eq_some_iff.mp hfind
  simp only [Prod.mk.injEq] at heq
  obtain ⟨rfl, -, rfl⟩ := heq
  exact hn

/-- Quotes can be taken off unless they are one. -/
theorem conditionValue_isSome {value : List Char} :
    (conditionValue value).isSome ↔ value ≠ ['\''] := by
  unfold conditionValue
  split_ifs with hquoted
  · obtain ⟨hhead, hlast⟩ := hquoted
    rw [Option.isSome_map]
    obtain ⟨rest, rfl⟩ := List.head?_eq_some_iff.mp hhead
    obtain rfl | ⟨middle, c, rfl⟩ := List.eq_nil_or_concat' rest
    · exact iff_of_false (by decide) fun h => h rfl
    · rw [List.getLast?_cons, List.getLast?_append, List.getLast?_singleton] at hlast
      obtain rfl : c = '\'' := by simpa using hlast
      refine iff_of_true (Option.isSome_iff_exists.mpr ⟨middle, slice_eq_some.mpr ?_⟩) (by simp)
      refine ⟨['\''], ['\''], by simp, by decide, ?_⟩
      have hquote : Char.utf8Size '\'' = 1 := by decide
      simp only [size_cons, size_append, size_nil, hquote]
      omega
  · refine iff_of_true rfl fun heq => hquoted ?_
    rw [heq]
    exact ⟨rfl, rfl⟩

theorem parseSingleCondition_isSome {part : List Char} :
    (parseSingleCondition part).isSome ↔ ¬ LoneQuote part := by
  unfold parseSingleCondition LoneQuote
  cases hfind : findOperator part with
  | none => simp
  | some found =>
      obtain ⟨text, op, idx⟩ := found
      obtain ⟨column, rest, -, -, hcolumn, hrest⟩ := slices_of_find (findOperator_eq_some hfind)
      simp only [hcolumn, hrest, Option.bind_eq_bind, Option.bind_some]
      have hlone : (∃ text' op' idx' rest', some (text, op, idx) = some (text', op', idx') ∧
          sliceFrom (idx' + size text') part = some rest' ∧ trim rest' = ['\'']) ↔
            trim rest = ['\''] := by
        constructor
        · rintro ⟨_, _, _, rest', heq, hrest', hquote⟩
          obtain ⟨rfl, rfl, rfl⟩ := by simpa only [Option.some.injEq, Prod.mk.injEq] using heq
          obtain rfl := Option.some.inj (hrest.symm.trans hrest')
          exact hquote
        · exact fun hquote => ⟨_, _, _, rest, rfl, hrest, hquote⟩
      rw [hlone, ← ne_eq, ← conditionValue_isSome]
      cases conditionValue (trim rest) <;> rfl

theorem mapM_isSome {α β : Type} {f : α → Option β} {l : List α} :
    (l.mapM f).isSome ↔ ∀ a ∈ l, (f a).isSome := by
  induction l with
  | nil => simp
  | cons a l ih =>
      rw [List.mapM_cons, List.forall_mem_cons, ← ih]
      cases f a with
      | none => simp
      | some b => cases l.mapM f <;> simp

theorem not_loneQuote_nil : ¬ LoneQuote [] := by
  rintro ⟨text, op, idx, rest, hfind, -⟩
  have hnone : findOperator [] = none := rfl
  rw [hnone] at hfind
  cases hfind

theorem parseSimpleWhere_isSome {clause : List Char} :
    (parseSimpleWhere clause).isSome ↔
      ∀ part ∈ split " AND ".toList clause, ¬ LoneQuote (trim part) := by
  unfold parseSimpleWhere
  rw [Option.isSome_map, mapM_isSome]
  simp only [List.mem_filter, List.mem_map, decide_eq_true_eq, parseSingleCondition_isSome]
  constructor
  · intro h part hpart
    by_cases hnil : trim part = []
    · rw [hnil]
      exact not_loneQuote_nil
    · exact h _ ⟨⟨part, hpart, rfl⟩, hnil⟩
  · rintro h _ ⟨⟨part, hpart, rfl⟩, -⟩
    exact h part hpart

/-! ### Vector search -/

section

variable {C : Casing} {sql : List Char}

/-- The WHERE clause lies between two places of the text, and no condition in it has a lone quote
for a value. -/
def WhereSafe (C : Casing) (sql : List Char) : Prop :=
  ∀ idx, find " WHERE ".toList (C.toUppercase sql) = some idx →
    ∀ after, sliceFrom (idx + 7) (C.toUppercase sql) = some after →
      (idx + 7 ≤ whereEnd sql after (idx + 7) ∧ Boundary (idx + 7) sql ∧
        Boundary (whereEnd sql after (idx + 7)) sql) ∧
      ∀ clause, slice (idx + 7) (whereEnd sql after (idx + 7)) sql = some clause →
        ∀ part ∈ split " AND ".toList (trim clause), ¬ LoneQuote (trim part)

theorem parseVectorWhere_isSome : (parseVectorWhere C sql).isSome ↔ WhereSafe C sql := by
  unfold parseVectorWhere WhereSafe
  dsimp only
  cases hfind : find " WHERE ".toList (C.toUppercase sql) with
  | none => exact iff_of_true rfl nofun
  | some idx =>
      obtain ⟨_, after, -, -, -, hafter⟩ := slices_of_find hfind
      have hafter : sliceFrom (idx + 7) (C.toUppercase sql) = some after := hafter
      simp only [Option.some.injEq, forall_eq', hafter, Option.bind_eq_bind, Option.bind_some]
      rw [← slice_isSome]
      cases slice (idx + 7) (whereEnd sql after (idx + 7)) sql with
      | none => simp
      | some clause =>
          simp only [Option.bind_some, Option.isSome_some, true_and, Option.some.injEq, forall_eq']
          rw [← parseSimpleWhere_isSome]
          split_ifs with hnil
          · rw [hnil]
            exact iff_of_true rfl rfl
          · rfl

/-- The text begins as a vector search does, up to its vector. -/
structure IsVectorSearch (C : Casing) (sql : List Char) : Prop where
  keyword : "VECTOR SEARCH".toList <+: C.toUppercase sql
  words : 6 ≤ (words sql).length
  field : (wordAfter "FIELD" (Text.words sql)).isSome

/-- The brackets of the vector are in order, and if there is a number between them, the WHERE clause
is safe. -/
def VectorSafe (C : Casing) (sql : List Char) : Prop :=
  IsVectorSearch C sql → ∀ opening, find ['['] sql = some opening →
    ∀ closing, find [']'] sql = some closing → opening < closing ∧
      ∀ text, slice (opening + 1) closing sql = some text → vectorComponents text ≠ [] →
        WhereSafe C sql

theorem parseVectorSearch_isSome : (parseVectorSearch C sql).isSome ↔ VectorSafe C sql := by
  unfold parseVectorSearch VectorSafe
  dsimp only
  split_ifs with hother
  · refine iff_of_true rfl fun h => ?_
    obtain hkeyword | hwords := hother
    · exact absurd h.keyword hkeyword
    · exact absurd h.words hwords.not_ge
  · rw [not_or, not_not, not_lt] at hother
    have hsearch : IsVectorSearch C sql ↔ (wordAfter "FIELD" (Text.words sql)).isSome :=
      ⟨IsVectorSearch.field, fun h => ⟨hother.1, hother.2, h⟩⟩
    rw [hsearch]
    cases wordAfter "FIELD" (Text.words sql) with
    | none => exact iff_of_true rfl nofun
    | some field =>
        cases hopen : find ['['] sql with
        | none => exact iff_of_true rfl nofun
        | some opening =>
            cases hclose : find [']'] sql with
            | none => exact iff_of_true rfl nofun
            | some closing =>
                obtain ⟨_, _, -, -, -, hafter⟩ := slices_of_find hopen
                obtain ⟨_, _, -, -, hbefore, -⟩ := slices_of_find hclose
                have horder : opening < closing ↔ (slice (opening + 1) closing sql).isSome := by
                  rw [slice_isSome, ← sliceFrom_isSome, ← sliceTo_isSome, hbefore]
                  exact (and_iff_left ⟨Option.isSome_iff_exists.mpr ⟨_, hafter⟩, rfl⟩).symm
                simp only [Option.isSome_some, forall_const, Option.some.injEq, forall_eq', horder]
                rw [← parseVectorWhere_isSome]
                cases slice (opening + 1) closing sql with
                | none => simp
                | some text =>
                    simp only [Option.bind_eq_bind, Option.bind_some, Option.isSome_some, true_and,
                      Option.some.injEq, forall_eq']
                    split_ifs with hnumbers
                    · exact iff_of_true rfl fun h => absurd hnumbers h
                    · rw [forall_prop_of_true hnumbers]
                      cases parseVectorWhere C sql <;> rfl

end

/-! ### Negation -/

/-- The numbers in the expression have no sign. -/
def Expr.Unsigned : Expr → Prop
  | .value (.number text) => text.toList.head? ≠ some '-'
  | .unaryOp _ e => e.Unsigned
  | _ => True

/-- The SQL library reads numbers without their signs. -/
def NumbersUnsigned (parseSql : List Char → Option (List Statement)) : Prop :=
  ∀ sql stmts, parseSql sql = some stmts → ∀ stmt ∈ stmts, ∀ e ∈ stmt.converted, e.Unsigned

theorem parseI64_lt {text : String} (htext : text.toList.head? ≠ some '-') {i : ℤ}
    (h : parseI64 text = some i) : 0 ≤ i ∧ i < 2 ^ 63 := by
  have hdigits : ∀ digits : List Char,
      ((parseDigits digits).bind fun n => if n < 2 ^ 63 then some (n : ℤ) else none) = some i →
        0 ≤ i ∧ i < 2 ^ 63 := by
    intro digits h
    obtain ⟨n, -, hn⟩ := Option.bind_eq_some_iff.mp h
    split_ifs at hn with hlt
    obtain rfl := Option.some.inj hn
    omega
  unfold parseI64 at h
  split at h
  · next heq => simp [heq] at htext
  · exact hdigits _ h
  · exact hdigits _ h

/-- Negations of an integer without a sign stay in range. -/
theorem convertExpr_int {e : Expr} (he : e.Unsigned) {i : ℤ} (h : convertExpr e = some (.int i)) :
    -2 ^ 63 < i ∧ i < 2 ^ 63 := by
  induction e using convertExpr.induct generalizing i with
  | case1 v =>
      cases v with
      | number text =>
          rw [convertExpr, convertSqlValue] at h
          split_ifs at h
          · simp at h
          · obtain ⟨j, hj, heq⟩ := Option.map_eq_some_iff.mp h
            obtain rfl := Value.int.inj heq
            have hlt := parseI64_lt he hj
            omega
      | _ => simp [convertExpr, convertSqlValue] at h
  | case2 ident => simp [convertExpr] at h
  | case3 e j hj ih =>
      have hlt := ih he hj
      obtain rfl : -j = i := by simpa [convertExpr, hj] using h
      omega
  | case4 e f hf ih => simp [convertExpr, hf] at h
  | case5 e hint hfloat ih =>
      rw [convertExpr] at h
      split at h
      · next heq => exact absurd heq (hint _)
      · next heq => exact absurd heq (hfloat _)
      · cases h
  | case6 e hvalue hident hminus =>
      rw [convertExpr] at h
      · cases h
      · exact hvalue
      · exact hident
      · exact hminus

theorem negationOverflows_of_unsigned {e : Expr} (he : e.Unsigned) :
    e.negationOverflows = false := by
  induction e using Expr.negationOverflows.induct with
  | case1 e ih =>
      rw [Expr.negationOverflows, ih he, Bool.false_or]
      split
      · next i hi =>
          have hlt := convertExpr_int (e := e) he hi
          exact decide_eq_false (by omega)
      · rfl
  | case2 e hminus =>
      rw [Expr.negationOverflows]
      exact hminus

theorem negationPanics_of_unsigned {es : List Expr} (h : ∀ e ∈ es, e.Unsigned) :
    negationPanics es = false := by
  induction es with
  | nil => rfl
  | cons e es ih =>
      obtain ⟨he, hes⟩ := List.forall_mem_cons.mp h
      rw [negationPanics, negationOverflows_of_unsigned he, ih hes, Bool.and_false, Bool.or_false]

/-- Standard SQL does not panic. -/
theorem parseStatement_isSome {parseSql : List Char → Option (List Statement)}
    (h : NumbersUnsigned parseSql) (sql : List Char) : (parseStatement parseSql sql).isSome := by
  unfold parseStatement
  split
  · next stmt hstmt =>
      have hsafe := negationPanics_of_unsigned (h sql _ hstmt stmt (List.mem_singleton_self stmt))
      rw [hsafe]
      rfl
  · rfl

/-! ### The result -/

section

variable {C : Casing} {sql : List Char}

/-- The text is safe for each of the commands that begin as it does. -/
structure ParseSafe (C : Casing) (sql : List Char) : Prop where
  vector : VectorSafe C sql
  fulltext : FulltextSafe C sql
  index : IndexSafe C sql

/-- A text that in upper case starts with no white space is trimmed at its end only. -/
theorem prefix_trim (hC : C.Documented) {c : Char} (hc : isWhitespace c = false) {u : List Char}
    (h : c :: u <+: C.toUppercase sql) : C.toUppercase (trim sql) <+: C.toUppercase sql := by
  have hdrop : sql.dropWhile isWhitespace = sql := by
    cases sql with
    | nil => rfl
    | cons d t =>
        refine List.dropWhile_cons_of_neg fun hd => ?_
        have hupper : C.toUppercase (d :: t) = d :: C.toUppercase t := by
          rw [Casing.toUppercase, List.flatMap_cons, hC.whitespace d hd]
          rfl
        rw [hupper, List.cons_prefix_cons] at h
        rw [h.1, hd] at hc
        cases hc
  obtain ⟨back, hback⟩ : trim sql <+: sql := by
    rw [trim, hdrop]
    exact List.rdropWhile_prefix _ _
  refine ⟨C.toUppercase back, ?_⟩
  conv_rhs => rw [← hback]
  exact List.flatMap_append.symm

/-- A text that in upper case starts with a keyword does not start with one of other letters. -/
theorem indexSafe_of_prefix (hC : C.Documented) {c : Char} (hc : isWhitespace c = false)
    (hother : ∀ k ∈ indexKeywords, k.1.toList.head? ≠ some c) {u : List Char}
    (h : c :: u <+: C.toUppercase sql) : IndexSafe C sql := by
  have hnone : ∀ k ∈ indexKeywords, ¬ k.1.toList <+: C.toUppercase (trim sql) := by
    intro k hk hpre
    have htext := hpre.trans (prefix_trim hC hc h)
    obtain ⟨back, hback⟩ := h
    rw [← hback, List.cons_append] at htext
    have hhead := hother k hk
    cases hkeyword : k.1.toList with
    | nil =>
        have hne : ∀ k ∈ indexKeywords, k.1.toList ≠ [] := by decide
        exact hne k hk hkeyword
    | cons d keyword =>
        rw [hkeyword] at htext hhead
        exact hhead (congrArg some (List.cons_prefix_cons.mp htext).1)
  exact ⟨fun k hk h => absurd h (hnone k hk), fun k hk rest h => absurd h.1 (hnone k hk)⟩

theorem fulltextSafe_of_other (h : ¬ "FULLTEXT SEARCH".toList <+: C.toUppercase sql) :
    FulltextSafe C sql := by
  have hfield : ∀ t, ¬ FieldText C sql t := fun t ⟨_, hfollows, _⟩ => h hfollows.1
  have hfor : ∀ t, ¬ ForText C sql t := fun t ⟨t', ht', _⟩ => hfield t' ht'
  exact ⟨fun h' => absurd h' h, fun t ht => absurd ht (hfield t), fun t ht => absurd ht (hfor t),
    fun t ⟨t', ht', _⟩ => absurd ht' (hfor t')⟩

theorem parseVectorSearch_of_other (h : ¬ "VECTOR SEARCH".toList <+: C.toUppercase sql) :
    parseVectorSearch C sql = some none := if_pos (.inl h)

theorem parseFulltextSearch_of_other (h : ¬ "FULLTEXT SEARCH".toList <+: C.toUppercase sql) :
    parseFulltextSearch C sql = some none := by
  rw [parseFulltextSearch, afterKeyword, if_neg h]
  rfl

/-- The parser does not panic exactly on the texts that are safe. -/
theorem parse_no_panic_iff (hC : C.Documented) {parseSql : List Char → Option (List Statement)}
    (hsql : NumbersUnsigned parseSql) (sql : List Char) :
    (parse C parseSql sql).isSome ↔ ParseSafe C sql := by
  have hsafe : ParseSafe C sql ↔ VectorSafe C sql ∧ FulltextSafe C sql ∧ IndexSafe C sql :=
    ⟨fun h => ⟨h.vector, h.fulltext, h.index⟩, fun h => ⟨h.1, h.2.1, h.2.2⟩⟩
  simp only [parse, orTry_isSome, parseVectorSearch_isSome, parseFulltextSearch_isSome,
    parseIndexCommand_isSome, parseStatement_isSome hsql, implies_true, and_true, hsafe]
  refine and_congr_right fun _ => ?_
  by_cases hvector : "VECTOR SEARCH".toList <+: C.toUppercase sql
  · have hfulltext : ¬ "FULLTEXT SEARCH".toList <+: C.toUppercase sql := by
      intro hfulltext
      have hdiffer := List.prefix_or_prefix_of_prefix hvector hfulltext
      revert hdiffer
      decide
    have hfull := fulltextSafe_of_other hfulltext
    have hindex := indexSafe_of_prefix hC (by decide) (by decide) hvector
    exact iff_of_true (fun _ => ⟨hfull, fun _ => hindex⟩) ⟨hfull, hindex⟩
  · rw [parseVectorSearch_of_other hvector, forall_prop_of_true rfl]
    refine and_congr_right fun _ => ?_
    by_cases hfulltext : "FULLTEXT SEARCH".toList <+: C.toUppercase sql
    · have hindex := indexSafe_of_prefix hC (by decide) (by decide) hfulltext
      exact iff_of_true (fun _ => hindex) hindex
    · rw [parseFulltextSearch_of_other hfulltext, forall_prop_of_true rfl]

end

/-- Upper and lower case of ASCII letters. -/
def asciiCasing : Casing := ⟨fun c => [c.toUpper], fun t => t.map Char.toLower⟩

theorem asciiCasing_documented : asciiCasing.Documented := by
  refine ⟨fun _ _ => rfl, fun c hc => congrArg (fun c => [c]) ?_⟩
  refine Char.toUpper_eq_of_not_isLower fun hlower => ?_
  simp only [Char.isLower, Bool.and_eq_true, decide_eq_true_eq, ge_iff_le,
    UInt32.le_iff_toNat_le] at hlower
  have hletter : 97 ≤ c.toNat ∧ c.toNat ≤ 122 := hlower
  simp only [isWhitespace, Bool.or_eq_true, Bool.and_eq_true, decide_eq_true_eq] at hc
  omega

/-- A library that reads no statement. -/
def noSql : List Char → Option (List Statement) := fun _ => none

theorem numbersUnsigned_noSql : NumbersUnsigned noSql := nofun

theorem parse_no_panic_iff_sample :
    (asciiCasing.Documented ∧ NumbersUnsigned noSql) ∧
    ((parse asciiCasing noSql "VECTOR SEARCH docs FIELD v FOR [1] WHERE a = 1".toList).isSome ↔
      ParseSafe asciiCasing "VECTOR SEARCH docs FIELD v FOR [1] WHERE a = 1".toList) :=
  ⟨⟨asciiCasing_documented, numbersUnsigned_noSql⟩,
    parse_no_panic_iff asciiCasing_documented numbersUnsigned_noSql _⟩

/-- A closing bracket before the opening one is a panic. -/
theorem brackets_panic :
    ¬ ∀ (C : Casing) (parseSql : List Char → Option (List Statement)), C.Documented →
      NumbersUnsigned parseSql → ∀ sql, (parse C parseSql sql).isSome := by
  intro h
  have hsome := h asciiCasing noSql asciiCasing_documented numbersUnsigned_noSql
    "VECTOR SEARCH docs FIELD v FOR ][".toList
  revert hsome
  decide +kernel

end AresaDb.Query
