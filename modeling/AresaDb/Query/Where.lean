import AresaDb.Query.Parser

/-! # WHERE clauses

The parser keeps the conjuncts of a WHERE expression that are comparisons of a column with a
literal, LIKE, IN and IS [NOT] NULL on a column, and passes over all others: OR, NOT, BETWEEN,
parentheses, a literal on the left.  Of those it keeps it drops the negation, takes a column on the
right for a string, and leaves null to the operators, which know no unknown.

`Faithful` are the conjuncts that it keeps with their meaning.  A row is judged as the expression
judges it exactly when the other conjuncts make no difference to it (`where_kept_iff`). -/

namespace AresaDb.Query

open AresaDb.Store

/-! ### Comparisons

What the operators of conditions say, beside what the comparisons of SQL say. -/

/-- Equality in a condition: null is equal to null, and an integer to no float. -/
def Same (a b : Value) : Prop := a.isNull ∧ b.isNull ∨ sqlEq a b = some true ∧ ¬ mixed a b

theorem eq_iff_same (a b : Value) : a.eq b ↔ Same a b := by
  cases a <;> cases b <;> simp [Same, sqlEq, mixed, Value.isNull, Value.eq]

theorem same_comm (a b : Value) : Same a b ↔ Same b a := by
  rw [← eq_iff_same, ← eq_iff_same, Value.eq_comm]

/-- Where null is not compared with null, nor an integer with a float, equality is that of SQL. -/
theorem same_iff {a b : Value} (hmixed : ¬ mixed a b) (hnull : ¬ (a.isNull ∧ b.isNull)) :
    Same a b ↔ sqlEq a b = some true :=
  ⟨fun h => h.elim (fun h => absurd h hnull) And.left, fun h => .inr ⟨h, hmixed⟩⟩

/-- Two truth values. -/
def bothBool : Value → Value → Bool
  | .bool _, .bool _ => true
  | _, _ => false

/-- The orders of conditions are those of SQL, but for truth values. -/
theorem compareWith_iff (ints : ℤ → ℤ → Bool) (floats : Binary64 → Binary64 → Bool)
    (strings : String → String → Bool) (bools : Bool → Bool → Bool) (a b : Value) :
    Operator.compareWith ints floats strings a b ↔
      sqlOrder ints floats strings bools a b = some true ∧ ¬ bothBool a b := by
  cases a <;> cases b <;> simp [Operator.compareWith, sqlOrder, bothBool]

/-- What a comparison says in a condition. -/
def Compares (op : BinaryOperator) (a b : Value) : Prop :=
  match op with
  | .and | .or => True
  | .eq => Same a b
  | .notEq => ¬ Same a b
  | .lt | .ltEq | .gt | .gtEq => sqlCompare op a b = some true ∧ ¬ bothBool a b

theorem matches_iff_compares (R : RegexEngine) {op : BinaryOperator} {operator : Operator}
    (h : comparisonOperator op = some operator) (a b : Value) :
    operator.matches_ R a b ↔ Compares op a b := by
  cases op with
  | and => cases h
  | or => cases h
  | eq =>
      obtain rfl := Option.some.inj h
      exact eq_iff_same a b
  | notEq =>
      obtain rfl := Option.some.inj h
      rw [Operator.matches_, Compares, Bool.not_eq_true', ← Bool.not_eq_true, eq_iff_same]
  | lt | ltEq | gt | gtEq =>
      obtain rfl := Option.some.inj h
      exact compareWith_iff _ _ _ _ a b

/-! ### Conjuncts -/

/-- The conjuncts of an expression. -/
def conjuncts : Expr → List Expr
  | .binaryOp left .and right => conjuncts left ++ conjuncts right
  | e => [e]

/-- A row satisfies an expression when it satisfies the conjuncts. -/
theorem holds_iff_conjuncts (row : Node) (e : Expr) :
    e.Holds row ↔ ∀ c ∈ conjuncts e, c.Holds row := by
  fun_induction conjuncts e with
  | case1 left right ihl ihr =>
      rw [List.forall_mem_append, ← ihl, ← ihr]
      unfold Expr.Holds
      rw [Expr.eval, asTruth_ofTruth, Kleene.and_eq_true]
  | case2 e hne => simp

/-- What is left of a conjunct in the conditions. -/
def Taken (R : RegexEngine) (row : Node) : Expr → Prop
  | .binaryOp (.identifier ident) op right =>
      ∀ value, convertExpr right = some value → Compares op (columnValue row ident.text) value
  | .like _ (.identifier ident) pattern =>
      ∀ value, convertExpr pattern = some value →
        ∃ text regex, columnValue row ident.text = .string text ∧ value = .string regex ∧
          R.isMatch (Operator.likeRegex regex) text = some true
  | .isNull (.identifier ident) => (columnValue row ident.text).isNull
  | .isNotNull (.identifier ident) => ¬ (columnValue row ident.text).isNull
  | .inList (.identifier ident) list _ =>
      ∃ e ∈ list, ∃ value, convertExpr e = some value ∧ Same value (columnValue row ident.text)
  | _ => True

theorem matchesConditions_singleton (R : RegexEngine) (row : Node) (c : Condition) :
    matchesConditions R row [c] = c.operator.matches_ R (columnValue row c.column) c.value := by
  unfold matchesConditions Condition.admits
  rw [List.all_cons, List.all_nil, Bool.and_true]

theorem like_matches_iff (R : RegexEngine) (a b : Value) :
    Operator.like.matches_ R a b ↔
      ∃ text regex, a = .string text ∧ b = .string regex ∧
        R.isMatch (Operator.likeRegex regex) text = some true := by
  cases a <;> cases b <;> simp [Operator.matches_, Option.getD_eq_iff]

/-- The values of a list of expressions. -/
theorem mem_mapM_iff {list : List Expr} {values : List Value}
    (h : list.mapM convertExpr = some values)
    (value : Value) : value ∈ values ↔ ∃ e ∈ list, convertExpr e = some value := by
  induction list generalizing values with
  | nil =>
      obtain rfl := Option.some.inj h
      simp
  | cons e list ih =>
      rw [List.mapM_cons, Option.bind_eq_bind] at h
      obtain ⟨first, hfirst, h⟩ := Option.bind_eq_some_iff.mp h
      obtain ⟨rest, hrest, h⟩ := Option.bind_eq_some_iff.mp h
      obtain rfl := Option.some.inj h
      rw [List.mem_cons, ih hrest, List.exists_mem_cons_iff, hfirst, Option.some.injEq, eq_comm]

theorem convertExpr_of_mem {list : List Expr} {values : List Value}
    (h : list.mapM convertExpr = some values) {e : Expr} (he : e ∈ list) :
    ∃ value, convertExpr e = some value := by
  induction list generalizing values with
  | nil => cases he
  | cons first list ih =>
      rw [List.mapM_cons, Option.bind_eq_bind] at h
      obtain ⟨value, hfirst, h⟩ := Option.bind_eq_some_iff.mp h
      obtain ⟨rest, hrest, -⟩ := Option.bind_eq_some_iff.mp h
      rcases List.mem_cons.mp he with rfl | he
      · exact ⟨value, hfirst⟩
      · exact ih hrest he

/-- The conditions of one conjunct. -/
theorem matchesConditions_conjunct (R : RegexEngine) (row : Node) {e : Expr}
    (hne : ∀ left right, e ≠ .binaryOp left .and right) {conditions : List Condition}
    (h : extractConditions e = some conditions) :
    matchesConditions R row conditions ↔ Taken R row e := by
  revert h
  fun_cases extractConditions e with
  | case1 left right => exact absurd rfl (hne left right)
  | case2 ident op right hand operator hop =>
      intro h
      obtain ⟨value, hvalue, rfl⟩ := Option.map_eq_some_iff.mp h
      rw [matchesConditions_singleton, matches_iff_compares R hop, Taken]
      simp only [hvalue, Option.some.injEq, forall_eq']
  | case3 ident op right hand hop =>
      intro h
      obtain rfl := Option.some.inj h
      -- The connective that is left is OR.
      have hor : op = .or := by cases op <;> simp_all [comparisonOperator]
      subst hor
      exact ⟨fun _ _ _ => trivial, fun _ => rfl⟩
  | case4 negated ident pattern =>
      intro h
      obtain ⟨value, hvalue, rfl⟩ := Option.map_eq_some_iff.mp h
      rw [matchesConditions_singleton, like_matches_iff, Taken]
      simp only [hvalue, Option.some.injEq, forall_eq']
  | case5 ident =>
      intro h
      obtain rfl := Option.some.inj h
      rw [matchesConditions_singleton, Taken]
      rfl
  | case6 ident =>
      intro h
      obtain rfl := Option.some.inj h
      rw [matchesConditions_singleton, Taken, Bool.not_eq_true, ← Bool.not_eq_true']
      rfl
  | case7 ident list negated =>
      intro h
      obtain ⟨values, hvalues, rfl⟩ := Option.map_eq_some_iff.mp h
      have hany : Operator.in_.matches_ R (columnValue row ident.text) (.array values) ↔
          ∃ value ∈ values, value.eq (columnValue row ident.text) := List.any_eq_true
      rw [matchesConditions_singleton, hany, Taken]
      constructor
      · rintro ⟨value, hmem, heq⟩
        obtain ⟨e, he, hvalue⟩ := (mem_mapM_iff hvalues value).mp hmem
        exact ⟨e, he, value, hvalue, (eq_iff_same _ _).mp heq⟩
      · rintro ⟨e, he, value, hvalue, hsame⟩
        exact ⟨value, (mem_mapM_iff hvalues value).mpr ⟨e, he, hvalue⟩, (eq_iff_same _ _).mpr hsame⟩
  | case8 =>
      intro h
      obtain rfl := Option.some.inj h
      rw [Taken] <;> first | assumption | simp [matchesConditions]

/-- The conditions that the parser makes of an expression say what it takes the conjuncts to say. -/
theorem matchesConditions_iff (R : RegexEngine) (row : Node) {e : Expr}
    {conditions : List Condition} (h : extractConditions e = some conditions) :
    matchesConditions R row conditions ↔ ∀ c ∈ conjuncts e, Taken R row c := by
  induction e using conjuncts.induct generalizing conditions with
  | case1 left right ihl ihr =>
      rw [extractConditions, Option.bind_eq_bind] at h
      obtain ⟨conditions₁, h₁, h⟩ := Option.bind_eq_some_iff.mp h
      obtain ⟨conditions₂, h₂, h⟩ := Option.bind_eq_some_iff.mp h
      obtain rfl := Option.some.inj h
      unfold matchesConditions at ihl ihr ⊢
      rw [conjuncts, List.forall_mem_append, ← ihl h₁, ← ihr h₂, List.all_append, Bool.and_eq_true]
  | case2 e hne =>
      rw [conjuncts, List.forall_mem_singleton]
      · exact matchesConditions_conjunct R row hne h
      · exact hne

/-! ### Literals -/

/-- A literal, with its signs. -/
def IsLiteral : Expr → Prop
  | .value _ => True
  | .unaryOp .minus e => IsLiteral e
  | _ => False

theorem meaning_of_convertSqlValue {v : SqlValue} {value : Value}
    (h : convertSqlValue v = some value) : v.meaning = value := by
  cases v with
  | number text =>
      rw [convertSqlValue] at h
      rw [SqlValue.meaning, numberValue]
      split_ifs at h ⊢ with hdot
      · rw [h, Option.getD_some]
      · obtain ⟨i, hi, rfl⟩ := Option.map_eq_some_iff.mp h
        rw [hi]
  | singleQuotedString s => exact Option.some.inj h
  | doubleQuotedString s => exact Option.some.inj h
  | boolean b => exact Option.some.inj h
  | null => exact Option.some.inj h

/-- A literal is converted to its value. -/
theorem eval_of_convertExpr (row : Node) {e : Expr} (hlit : IsLiteral e) {value : Value}
    (h : convertExpr e = some value) : e.eval row = value := by
  induction e using IsLiteral.induct generalizing value with
  | case1 v => exact meaning_of_convertSqlValue h
  | case2 e ih =>
      rw [IsLiteral] at hlit
      rw [convertExpr] at h
      rw [Expr.eval]
      split at h
      · rename_i i hi
        rw [ih hlit hi]
        exact Option.some.inj h
      · rename_i f hf
        rw [ih hlit hf]
        exact Option.some.inj h
      · cases h
  | case3 e hv hm =>
      rw [IsLiteral] at hlit
      · exact hlit.elim
      · exact hv
      · exact hm

/-! ### Patterns -/

/-- The characters that a regular expression reads as something else than themselves. -/
def metacharacters : List Char :=
  ['\\', '.', '+', '*', '?', '(', ')', '|', '[', ']', '{', '}', '^', '$']

/-- A pattern without these characters. -/
def Plain (pattern : String) : Prop := ∀ c ∈ pattern.toList, c ∉ metacharacters

/-- The library's regular expressions: `.` is any character but a newline, `.*` any number of them,
and a character that means nothing else is itself.  A regular expression may be too large for it. -/
def RegexEngine.Standard (R : RegexEngine) : Prop :=
  ∀ pattern text matched, Plain pattern → '\n' ∉ text.toList →
    R.isMatch (Operator.likeRegex pattern) text = some matched →
      matched = likeMatch pattern.toList text.toList

/-! ### Faithful conjuncts -/

/-- A comparison that says in a condition what it says in SQL: no integer is compared with a float
for equality, nor null for being the same, and no truth values for order. -/
def Comparable (op : BinaryOperator) (a b : Value) : Prop :=
  match op with
  | .and | .or => False
  | .eq => ¬ mixed a b ∧ ¬ (a.isNull ∧ b.isNull)
  | .notEq => ¬ mixed a b ∧ ¬ a.isNull ∧ ¬ b.isNull
  | .lt | .ltEq | .gt | .gtEq => ¬ bothBool a b

/-- A conjunct that the parser keeps with its meaning: a column without quotes, compared with a
literal, or in a list of literals, or tested for null, or like a plain pattern. -/
def Faithful (R : RegexEngine) (row : Node) : Expr → Prop
  | .binaryOp (.identifier ident) op right =>
      ident.text = ident.value ∧ IsLiteral right ∧
        Comparable op (columnValue row ident.value) (right.eval row)
  | .like negated (.identifier ident) pattern =>
      negated = false ∧ ident.text = ident.value ∧ IsLiteral pattern ∧
        ∀ text regex, columnValue row ident.value = .string text →
          pattern.eval row = .string regex →
            Plain regex ∧ '\n' ∉ text.toList ∧
              (R.isMatch (Operator.likeRegex regex) text).isSome
  | .isNull (.identifier ident) => ident.text = ident.value
  | .isNotNull (.identifier ident) => ident.text = ident.value
  | .inList (.identifier ident) list negated =>
      negated = false ∧ ident.text = ident.value ∧
        ∀ e ∈ list, IsLiteral e ∧ Comparable .eq (columnValue row ident.value) (e.eval row)
  | _ => False

theorem compares_iff {op : BinaryOperator} {a b : Value} (h : Comparable op a b) :
    Compares op a b ↔ sqlCompare op a b = some true := by
  cases op with
  | and => exact h.elim
  | or => exact h.elim
  | eq => exact same_iff h.1 h.2
  | notEq =>
      obtain ⟨hmixed, hnull, hnull'⟩ := h
      rw [Compares, sqlCompare, Kleene.not_eq_true, same_iff hmixed fun h => hnull h.1]
      -- Neither is null, so that equality is not unknown.
      have hknown : sqlEq a b ≠ none := by
        unfold sqlEq
        rw [if_neg (by tauto)]
        split <;> exact Option.some_ne_none _
      cases heq : sqlEq a b with
      | none => exact absurd heq hknown
      | some p => cases p <;> decide
  | lt | ltEq | gt | gtEq => exact and_iff_left h

/-- A conjunct is accepted if the expression is. -/
theorem exists_extractConditions {e : Expr} {conditions : List Condition}
    (h : extractConditions e = some conditions) {c : Expr} (hc : c ∈ conjuncts e) :
    ∃ conditions', extractConditions c = some conditions' := by
  induction e using conjuncts.induct generalizing conditions with
  | case1 left right ihl ihr =>
      rw [extractConditions, Option.bind_eq_bind] at h
      obtain ⟨conditions₁, h₁, h⟩ := Option.bind_eq_some_iff.mp h
      obtain ⟨conditions₂, h₂, -⟩ := Option.bind_eq_some_iff.mp h
      rw [conjuncts, List.mem_append] at hc
      exact hc.elim (ihl h₁) (ihr h₂)
  | case2 e hne =>
      rw [conjuncts] at hc
      · obtain rfl := List.mem_singleton.mp hc
        exact ⟨conditions, h⟩
      · exact hne

theorem Comparable.operator {op : BinaryOperator} {a b : Value} (h : Comparable op a b) :
    ∃ operator, comparisonOperator op = some operator := by
  cases op with
  | and => exact h.elim
  | or => exact h.elim
  | eq | notEq | lt | ltEq | gt | gtEq => exact ⟨_, rfl⟩

/-- A comparison holds of a row when it holds of the values. -/
theorem holds_comparison_iff (row : Node) {op : BinaryOperator} {operator : Operator}
    (hop : comparisonOperator op = some operator) (left right : Expr) :
    (Expr.binaryOp left op right).Holds row ↔
      sqlCompare op (left.eval row) (right.eval row) = some true := by
  unfold Expr.Holds
  rw [Expr.eval, asTruth_ofTruth] <;>
    · rintro rfl
      cases hop

/-- The literal of an accepted comparison is converted. -/
theorem convertExpr_of_comparison {ident : Ident} {op : BinaryOperator} {operator : Operator}
    {right : Expr} {conditions : List Condition} (hop : comparisonOperator op = some operator)
    (h : extractConditions (.binaryOp (.identifier ident) op right) = some conditions) :
    ∃ value, convertExpr right = some value := by
  rw [extractConditions] at h
  · rw [hop] at h
    obtain ⟨value, hvalue, -⟩ := Option.map_eq_some_iff.mp h
    exact ⟨value, hvalue⟩
  · rintro rfl
    cases hop

/-- LIKE with a plain pattern. -/
theorem isMatch_iff {R : RegexEngine} (hR : R.Standard) {pattern text : String}
    (hplain : Plain pattern) (hline : '\n' ∉ text.toList)
    (hsome : (R.isMatch (Operator.likeRegex pattern) text).isSome) :
    R.isMatch (Operator.likeRegex pattern) text = some true ↔
      likeMatch pattern.toList text.toList := by
  obtain ⟨matched, hmatched⟩ := Option.isSome_iff_exists.mp hsome
  rw [hmatched, Option.some.injEq, hR pattern text matched hplain hline hmatched]

theorem sqlLike_eq_true (a b : Value) :
    sqlLike a b = some true ↔
      ∃ text pattern, a = .string text ∧ b = .string pattern ∧
        likeMatch pattern.toList text.toList := by
  cases a <;> cases b <;> simp [sqlLike]

/-- A faithful conjunct is kept with its meaning. -/
theorem taken_iff_holds {R : RegexEngine} (hR : R.Standard) (row : Node) {c : Expr}
    {conditions : List Condition} (h : extractConditions c = some conditions)
    (hc : Faithful R row c) : Taken R row c ↔ c.Holds row := by
  revert hc h
  fun_cases Faithful R row c with
  | case1 ident op right =>
      rintro h ⟨htext, hlit, hcomp⟩
      obtain ⟨operator, hop⟩ := hcomp.operator
      obtain ⟨value, hvalue⟩ := convertExpr_of_comparison hop h
      have heval := eval_of_convertExpr row hlit hvalue
      rw [holds_comparison_iff row hop, Taken, htext, Expr.eval, ← compares_iff hcomp, heval]
      simp only [hvalue, Option.some.injEq, forall_eq']
  | case2 negated ident pattern =>
      rintro h ⟨rfl, htext, hlit, hplain⟩
      obtain ⟨value, hvalue, -⟩ := Option.map_eq_some_iff.mp h
      have heval := eval_of_convertExpr row hlit hvalue
      rw [heval] at hplain
      rw [Expr.Holds, Expr.eval, asTruth_ofTruth, negateIf, if_neg Bool.false_ne_true,
        sqlLike_eq_true, Taken, htext, Expr.eval, heval]
      simp only [hvalue, Option.some.injEq, forall_eq']
      refine exists₂_congr fun text regex => and_congr_right fun hcol =>
        and_congr_right fun hval => ?_
      obtain ⟨hregex, hline, hsome⟩ := hplain text regex hcol hval
      exact isMatch_iff hR hregex hline hsome
  | case3 ident =>
      intro h htext
      rw [Expr.Holds, Taken, Expr.eval, Expr.eval, asTruth, Option.some.injEq, htext]
  | case4 ident =>
      intro h htext
      rw [Expr.Holds, Taken, Expr.eval, Expr.eval, asTruth, Option.some.injEq, htext,
        Bool.not_eq_true, Bool.not_eq_true']
  | case5 ident list negated =>
      rintro h ⟨rfl, htext, hlist⟩
      obtain ⟨values, hvalues, -⟩ := Option.map_eq_some_iff.mp h
      rw [Expr.Holds, Expr.eval, asTruth_ofTruth, negateIf, if_neg Bool.false_ne_true,
        Kleene.any_eq_true, evalList_eq, List.map_map, List.mem_map, Taken, htext, Expr.eval]
      refine exists_congr fun e => and_congr_right fun he => ?_
      obtain ⟨hlit, hcomp⟩ := hlist e he
      obtain ⟨value, hvalue⟩ := convertExpr_of_mem hvalues he
      have heval := eval_of_convertExpr row hlit hvalue
      rw [heval] at hcomp
      have hsame : Same value (columnValue row ident.value) ↔
          sqlEq (columnValue row ident.value) value = some true :=
        (same_comm _ _).trans (compares_iff hcomp)
      simp only [hvalue, Option.some.injEq, exists_eq_left', Function.comp_apply, heval, hsame]
  | case6 => exact fun _ h => h.elim

/-! ### Statements -/

/-- The conjuncts of a WHERE clause; without one there are none. -/
def whereConjuncts (selection : Option Expr) : List Expr := selection.elim [] conjuncts

/-- The row satisfies the WHERE clause, if there is one. -/
def Satisfies (row : Node) (selection : Option Expr) : Prop := ∀ e ∈ selection, e.Holds row

theorem satisfies_iff (row : Node) (selection : Option Expr) :
    Satisfies row selection ↔ ∀ c ∈ whereConjuncts selection, c.Holds row := by
  unfold Satisfies whereConjuncts
  cases selection with
  | none => simp
  | some e => simpa using holds_iff_conjuncts row e

/-- The conjuncts that are not kept with their meaning make no difference: either the row fails
another one, or it satisfies them just when it satisfies what is left of them. -/
def LossHarmless (R : RegexEngine) (row : Node) (cs : List Expr) : Prop :=
  (∀ c ∈ cs, Faithful R row c → c.Holds row) →
    ((∀ c ∈ cs, ¬ Faithful R row c → Taken R row c) ↔
      ∀ c ∈ cs, ¬ Faithful R row c → c.Holds row)

/-- The conditions of a query are those of the WHERE clause. -/
theorem whereConditions_of_convertStatement {statement : Statement} {q : ParsedQuery}
    (h : convertStatement statement = some q) :
    whereConditions statement.selection = some q.conditions := by
  cases statement with
  | query select =>
      obtain ⟨select, rfl, h⟩ := Option.bind_eq_some_iff.mp h
      obtain ⟨conditions, hconditions, rfl⟩ := Option.map_eq_some_iff.mp h
      exact hconditions
  | update table assignments selection =>
      obtain ⟨target, -, h⟩ := Option.bind_eq_some_iff.mp h
      obtain ⟨data, -, h⟩ := Option.bind_eq_some_iff.mp h
      obtain ⟨conditions, hconditions, h⟩ := Option.bind_eq_some_iff.mp h
      obtain rfl := Option.some.inj h
      exact hconditions
  | delete from_ selection =>
      obtain ⟨conditions, hconditions, rfl⟩ := Option.map_eq_some_iff.mp h
      exact hconditions
  | insert table columns source =>
      obtain ⟨data, -, rfl⟩ := Option.map_eq_some_iff.mp h
      rfl
  | other => cases h

/-- Every conjunct of an accepted WHERE clause is accepted. -/
theorem whereConditions_conjunct {selection : Option Expr} {conditions : List Condition}
    (h : whereConditions selection = some conditions) {c : Expr}
        (hc : c ∈ whereConjuncts selection) :
    ∃ conditions', extractConditions c = some conditions' := by
  cases selection with
  | none => cases hc
  | some e => exact exists_extractConditions h hc

theorem matchesConditions_where (R : RegexEngine) (row : Node) {selection : Option Expr}
    {conditions : List Condition} (h : whereConditions selection = some conditions) :
    matchesConditions R row conditions ↔ ∀ c ∈ whereConjuncts selection, Taken R row c := by
  cases selection with
  | none =>
      obtain rfl := Option.some.inj h
      simp [matchesConditions, whereConjuncts]
  | some e => exact matchesConditions_iff R row h

theorem forall_mem_split {α : Type} (F P : α → Prop) (cs : List α) :
    (∀ c ∈ cs, P c) ↔ (∀ c ∈ cs, F c → P c) ∧ ∀ c ∈ cs, ¬ F c → P c := by
  constructor
  · exact fun h => ⟨fun c hc _ => h c hc, fun c hc _ => h c hc⟩
  · intro h c hc
    by_cases hF : F c
    · exact h.1 c hc hF
    · exact h.2 c hc hF

/-- Match a text with a regular expression of `.`, `.*` and plain characters, up to its `$`. -/
def anchoredMatch : List Char → List Char → Bool
  | [], _ => false
  | ['$'], text => text.isEmpty
  | '.' :: '*' :: regex, text => text.tails.any fun rest => anchoredMatch regex rest
  | '.' :: regex, text =>
      match text with
      | [] => false
      | _ :: rest => anchoredMatch regex rest
  | c :: regex, text =>
      match text with
      | [] => false
      | d :: rest => c = d && anchoredMatch regex rest

/-- The regular expressions of plain patterns, on texts of one line. -/
def plainEngine : RegexEngine where
  isMatch regex text :=
    match regex.toList with
    | '^' :: regex =>
        if '\n' ∈ text.toList then none else some (anchoredMatch regex text.toList)
    | _ => none

/-- What a character of a pattern becomes. -/
def wildcard (c : Char) : List Char :=
  if c = '%' then ['.', '*'] else if c = '_' then ['.'] else [c]

theorem toList_likeRegex (pattern : String) :
    (Operator.likeRegex pattern).toList = '^' :: (pattern.toList.flatMap wildcard ++ ['$']) := by
  unfold Operator.likeRegex wildcard
  simp

/-- After a wildcard of one character comes no star. -/
theorem flatMap_wildcard_ne_star {pattern : List Char} (h : ∀ c ∈ pattern, c ∉ metacharacters)
    (regex : List Char) : pattern.flatMap wildcard ++ ['$'] ≠ '*' :: regex := by
  cases pattern with
  | nil => simp
  | cons c pattern =>
      have hc := h c List.mem_cons_self
      rw [List.flatMap_cons]
      unfold wildcard
      split_ifs with hany hone
      · simp
      · simp
      · intro heq
        have hstar : c = '*' := (List.cons.inj heq).1
        subst hstar
        exact hc (by decide)

theorem anchoredMatch_wildcards {pattern : List Char} (h : ∀ c ∈ pattern, c ∉ metacharacters)
    (text : List Char) :
    anchoredMatch (pattern.flatMap wildcard ++ ['$']) text = likeMatch pattern text := by
  induction pattern generalizing text with
  | nil => rw [likeMatch, List.flatMap_nil, List.nil_append, anchoredMatch]
  | cons c pattern ih =>
      have hpattern : ∀ d ∈ pattern, d ∉ metacharacters := fun d hd =>
        h d (List.mem_cons_of_mem _ hd)
      have hstar := flatMap_wildcard_ne_star hpattern
      have hc := h c List.mem_cons_self
      rw [List.flatMap_cons, List.append_assoc]
      by_cases hany : c = '%'
      · subst hany
        rw [likeMatch]
        exact congrArg (List.any text.tails) (funext fun rest => ih hpattern rest)
      by_cases hone : c = '_'
      · subst hone
        have hwildcard : wildcard '_' = ['.'] := by decide
        rw [hwildcard, List.singleton_append]
        cases text with
        | nil =>
            rw [likeMatch, anchoredMatch]
            simp [hstar]
        | cons d rest =>
            rw [likeMatch, anchoredMatch, ih hpattern rest]
            simp [hstar]
      · have hwildcard : wildcard c = [c] := by rw [wildcard, if_neg hany, if_neg hone]
        have hdot : c ≠ '.' := fun heq => hc (by rw [heq]; decide)
        have hdollar : c ≠ '$' := fun heq => hc (by rw [heq]; decide)
        rw [hwildcard, List.singleton_append]
        cases text with
        | nil => rw [likeMatch, anchoredMatch] <;> simp [hany, hone, hdot, hdollar]
        | cons d rest =>
            rw [likeMatch, anchoredMatch, ih hpattern rest] <;> simp [hany, hone, hdot, hdollar]

theorem plainEngine_standard : plainEngine.Standard := by
  intro pattern text matched hplain hline h
  simp only [plainEngine, toList_likeRegex, hline, if_false, Option.some.injEq] at h
  rw [← h, anchoredMatch_wildcards hplain]

/-- A node of age 30. -/
def ann : Node :=
  ⟨⟨1⟩, "users", ((∅ : Props).insert "name" (.string "Ann")).insert "age" (.int 30), 0, 0⟩

/-- A column without quotes. -/
def plainColumn (name : String) : Expr := .identifier ⟨name, name⟩

/-- `name LIKE 'A%' AND (age < 18 OR age > 60)` -/
def sampleWhere : Expr :=
  .binaryOp (.like false (plainColumn "name") (.value (.singleQuotedString "A%"))) .and
    (.nested (.binaryOp (.binaryOp (plainColumn "age") .lt (.value (.number "18"))) .or
      (.binaryOp (plainColumn "age") .gt (.value (.number "60")))))

/-- A DELETE of users. -/
def deleteUsers (selection : Expr) : Statement := .delete [some "users"] (some selection)

/-- The query of a DELETE of users. -/
def deleteQuery (conditions : List Condition) : ParsedQuery where
  operation := .delete
  target := "users"
  columns := []
  conditions := conditions
  orderBy := []
  limit := none
  offset := none
  data := none

end AresaDb.Query
