import AresaDb.Lib.Kleene
import AresaDb.Query.Types

/-! # SQL expressions

The syntax of the SQL parser's library that a WHERE clause of comparisons, AND, OR, NOT, LIKE, IN,
IS NULL and BETWEEN is made of, and what such an expression says of a row.  Any other expression
stands for its value in each row.  This meaning
is SQL's own: a comparison with null is unknown, and unknowns are carried through the connectives;
numbers compare as numbers, whether they are integers or floats; a LIKE pattern has the wildcards
`%` and `_`.  Values of different kinds are not equal, and have no order. -/

namespace AresaDb.Query

open AresaDb.Store

/-- An identifier: its name, and its text with the quotes it was written with. -/
structure Ident where
  value : String
  text : String

inductive SqlValue where
  | number (text : String)
  | singleQuotedString (s : String)
  | doubleQuotedString (s : String)
  | boolean (b : Bool)
  | null

inductive UnaryOperator where
  | plus
  | minus
  | not
deriving DecidableEq, Repr

inductive BinaryOperator where
  | and
  | or
  | eq
  | notEq
  | lt
  | ltEq
  | gt
  | gtEq
deriving DecidableEq, Repr

inductive Expr where
  | identifier (ident : Ident)
  | value (v : SqlValue)
  | unaryOp (op : UnaryOperator) (e : Expr)
  | binaryOp (left : Expr) (op : BinaryOperator) (right : Expr)
  /-- An expression in parentheses. -/
  | nested (e : Expr)
  | like (negated : Bool) (e pattern : Expr)
  | inList (e : Expr) (list : List Expr) (negated : Bool)
  | isNull (e : Expr)
  | isNotNull (e : Expr)
  | between (e : Expr) (negated : Bool) (low high : Expr)
  /-- Any other expression or literal (a function call, arithmetic, a placeholder), as its value in
  each row. -/
  | other (meaning : Node → Value)

/-! ### Literals -/

/-- The number that a string of digits spells. -/
def parseDigits (digits : List Char) : Option ℕ :=
  if digits ≠ [] ∧ digits.all Char.isDigit then some (Binary64.digitsValue digits) else none

/-- `str::parse::<i64>` -/
def parseI64 (s : String) : Option ℤ :=
  match s.toList with
  | '-' :: digits => (parseDigits digits).bind fun n => if n ≤ 2 ^ 63 then some (-n) else none
  | '+' :: digits => (parseDigits digits).bind fun n => if n < 2 ^ 63 then some n else none
  | digits => (parseDigits digits).bind fun n => if n < 2 ^ 63 then some n else none

/-- `str::parse::<usize>` -/
def parseUsize (s : String) : Option ℕ :=
  let digits := match s.toList with
    | '+' :: digits => digits
    | digits => digits
  (parseDigits digits).bind fun n => if n < 2 ^ 64 then some n else none

/-- The value of a number: an integer that fits, else a float. -/
def numberValue (text : String) : Value :=
  if '.' ∈ text.toList then ((Binary64.parse text).map .float).getD .null
  else
    match parseI64 text with
    | some i => .int i
    | none => ((Binary64.parse text).map .float).getD .null

def SqlValue.meaning : SqlValue → Value
  | number text => numberValue text
  | singleQuotedString s => .string s
  | doubleQuotedString s => .string s
  | boolean b => .bool b
  | null => .null

/-! ### Comparisons -/

/-- An integer and a float. -/
def mixed : Value → Value → Bool
  | .int _, .float _ => true
  | .float _, .int _ => true
  | _, _ => false

/-- Equality, unknown of null. -/
def sqlEq (a b : Value) : Option Bool :=
  if a.isNull ∨ b.isNull then none
  else
    match a, b with
    | .int i, .float f => some (Binary64.eq (.ofInt i) f)
    | .float f, .int i => some (Binary64.eq f (.ofInt i))
    | a, b => some (a.eq b)

/-- An order relation on numbers, strings or truth values, unknown of other values. -/
def sqlOrder (ints : ℤ → ℤ → Bool) (floats : Binary64 → Binary64 → Bool)
    (strings : String → String → Bool) (bools : Bool → Bool → Bool) : Value → Value → Option Bool
  | .int a, .int b => some (ints a b)
  | .float a, .float b => some (floats a b)
  | .int a, .float b => some (floats (.ofInt a) b)
  | .float a, .int b => some (floats a (.ofInt b))
  | .string a, .string b => some (strings a b)
  | .bool a, .bool b => some (bools a b)
  | _, _ => none

/-- A comparison of two values; the connectives are none. -/
def sqlCompare (op : BinaryOperator) (a b : Value) : Option Bool :=
  match op with
  | .and | .or => none
  | .eq => sqlEq a b
  | .notEq => Kleene.not (sqlEq a b)
  | .lt => sqlOrder (fun a b => decide (a < b)) (fun a b => a.lt b) (fun a b => decide (a < b))
      (fun a b => !a && b) a b
  | .ltEq => sqlOrder (fun a b => decide (a ≤ b)) (fun a b => a.le b) (fun a b => decide (a ≤ b))
      (fun a b => !a || b) a b
  | .gt => sqlOrder (fun a b => decide (b < a)) (fun a b => b.lt a) (fun a b => decide (b < a))
      (fun a b => a && !b) a b
  | .gtEq => sqlOrder (fun a b => decide (b ≤ a)) (fun a b => b.le a) (fun a b => decide (b ≤ a))
      (fun a b => a || !b) a b

/-- A pattern covers a text: `%` any part of it, `_` one character, others themselves. -/
def likeMatch : List Char → List Char → Bool
  | [], text => text.isEmpty
  | '%' :: pattern, text => text.tails.any fun rest => likeMatch pattern rest
  | '_' :: pattern, text =>
      match text with
      | [] => false
      | _ :: rest => likeMatch pattern rest
  | c :: pattern, text =>
      match text with
      | [] => false
      | d :: rest => c = d && likeMatch pattern rest

/-- LIKE, unknown of values that are no strings. -/
def sqlLike : Value → Value → Option Bool
  | .string text, .string pattern => some (likeMatch pattern.toList text.toList)
  | _, _ => none

/-! ### Meaning -/

/-- The truth value of a value. -/
def asTruth : Value → Option Bool
  | .bool b => some b
  | _ => none

def ofTruth : Option Bool → Value
  | some b => .bool b
  | none => .null

@[simp] theorem asTruth_ofTruth (p : Option Bool) : asTruth (ofTruth p) = p := by
  cases p <;> rfl

def negateIf (negated : Bool) (p : Option Bool) : Option Bool :=
  if negated then Kleene.not p else p

/-- The negative of a number. -/
def negative : Value → Value
  | .int i => .int (-i)
  | .float f => .float f.neg
  | _ => .null

mutual

/-- The value of an expression in a row. -/
def Expr.eval (row : Node) : Expr → Value
  | .identifier ident => columnValue row ident.value
  | .value v => v.meaning
  | .unaryOp .plus e => e.eval row
  | .unaryOp .minus e => negative (e.eval row)
  | .unaryOp .not e => ofTruth (Kleene.not (asTruth (e.eval row)))
  | .binaryOp left .and right =>
      ofTruth (Kleene.and (asTruth (left.eval row)) (asTruth (right.eval row)))
  | .binaryOp left .or right =>
      ofTruth (Kleene.or (asTruth (left.eval row)) (asTruth (right.eval row)))
  | .binaryOp left op right => ofTruth (sqlCompare op (left.eval row) (right.eval row))
  | .nested e => e.eval row
  | .like negated e pattern => ofTruth (negateIf negated (sqlLike (e.eval row) (pattern.eval row)))
  | .inList e list negated =>
      ofTruth (negateIf negated (Kleene.any ((evalList row list).map (sqlEq (e.eval row)))))
  | .isNull e => .bool (e.eval row).isNull
  | .isNotNull e => .bool !(e.eval row).isNull
  | .between e negated low high =>
      ofTruth (negateIf negated (Kleene.and (sqlCompare .gtEq (e.eval row) (low.eval row))
        (sqlCompare .ltEq (e.eval row) (high.eval row))))
  | .other meaning => meaning row

/-- The values of the expressions of a list. -/
def evalList (row : Node) : List Expr → List Value
  | [] => []
  | e :: es => e.eval row :: evalList row es

end

/-- The row satisfies the expression: it is true, and not unknown. -/
def Expr.Holds (row : Node) (e : Expr) : Prop := asTruth (e.eval row) = some true

instance (row : Node) (e : Expr) : Decidable (e.Holds row) := by
  unfold Expr.Holds
  infer_instance

theorem evalList_eq (row : Node) (es : List Expr) : evalList row es = es.map (Expr.eval row) := by
  induction es with
  | nil => rw [evalList, List.map_nil]
  | cons e es ih => rw [evalList, ih, List.map_cons]

end AresaDb.Query
