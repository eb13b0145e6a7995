import CriteriaQuery.Compile.Like
import CriteriaQuery.Compile.Query
import CriteriaQuery.Text.Joined

/-!
# Conditions

Predicates as a tree of tests on columns, which can be shown and evaluated on rows in
memory. A test on a column that a row lacks is false, except the test for absence; values
that are not comparable are neither equal nor in any order.
-/

namespace CriteriaQuery

/-- A row: the values of the columns that it has. -/
abbrev Row := SortedMap ColumnRef Scalar

/-- A tree of tests on columns. -/
inductive Condition
  | always
  | never
  | all (parts : List Condition)
  | any (parts : List Condition)
  | compare (column : EscapedColumn) (op : Comparison) (value : Scalar)
  | isNull (column : EscapedColumn) (negated : Bool)
  | isIn (column : EscapedColumn) (values : List Scalar) (negated : Bool)
  | like (column : EscapedColumn) (pattern : String) (escape : Char)
deriving Inhabited

/-- A column to sort by and its direction. -/
structure SortField where
  column : EscapedColumn
  direction : SortDirection
deriving DecidableEq

namespace Condition

/-- Whether a value compares with another as asked. -/
def meets (actual : Scalar) (op : Comparison) (value : Scalar) : Bool :=
  match actual.compare? value with
  | some order => op.accepts order
  | none => false

/-- Whether a value equals one of a list. -/
def isAmong (actual : Scalar) (values : List Scalar) : Bool :=
  values.any fun v => actual.compare? v == some .eq

mutual

/-- Whether a row meets a condition. -/
def holds (row : Row) : Condition → Bool
  | .always => true
  | .never => false
  | .all parts => allHold row parts
  | .any parts => anyHolds row parts
  | .compare column op value =>
    match row.get? column.column with
    | some actual => meets actual op value
    | none => false
  | .isNull column negated => (row.get? column.column).isNone != negated
  | .isIn column values negated =>
    match row.get? column.column with
    | some actual => isAmong actual values != negated
    | none => false
  | .like column pattern escape =>
    match row.get? column.column with
    | some actual => Like.isMatch actual.bareText pattern escape
    | none => false

/-- Whether a row meets all conditions of a list. -/
def allHold (row : Row) : List Condition → Bool
  | [] => true
  | c :: cs => holds row c && allHold row cs

/-- Whether a row meets some condition of a list. -/
def anyHolds (row : Row) : List Condition → Bool
  | [] => false
  | c :: cs => holds row c || anyHolds row cs

end

theorem allHold_eq_all (row : Row) (cs : List Condition) : allHold row cs = cs.all (holds row) := by
  induction cs with
  | nil => rfl
  | cons c cs ih => simp [allHold, ih]

theorem anyHolds_eq_any (row : Row) (cs : List Condition) : anyHolds row cs = cs.any (holds row) := by
  induction cs with
  | nil => rfl
  | cons c cs ih => simp [anyHolds, ih]

/-- The rows of a list that meet a condition. -/
def filter (c : Condition) (rows : List Row) : List Row := rows.filter fun row => c.holds row

mutual

/-- The display form of a condition. -/
def display : Condition → String
  | .always => "true"
  | .never => "false"
  | .all parts => "(" ++ Text.joined " and " (displayAll parts) ++ ")"
  | .any parts => "(" ++ Text.joined " or " (displayAll parts) ++ ")"
  | .compare column op value => column.text ++ " " ++ op.literal ++ " " ++ value.display
  | .isNull column negated => column.text ++ if negated then " is not null" else " is null"
  | .isIn column values negated =>
    column.text ++ (if negated then " not in (" else " in (") ++
      Text.joined ", " (values.map Scalar.display) ++ ")"
  | .like column pattern escape =>
    column.text ++ " like " ++ Scalar.quoted pattern ++ " escape '" ++ String.singleton escape ++ "'"

/-- The display forms of conditions in order. -/
def displayAll : List Condition → List String
  | [] => []
  | c :: cs => display c :: displayAll cs

end

/-- The escape character of patterns in conditions. -/
def likeEscape : Char := '!'

/-- Conditions joined by a connector. -/
def combine : Connector → List Condition → Condition
  | .and, parts => .all parts
  | .or, parts => .any parts

/-- The backend that makes conditions. -/
def backend : Backend Condition SortField where
  alwaysTrue := .always
  alwaysFalse := .never
  combine := combine
  compare := fun column op value => .compare column.toEscapedColumn op value
  nullTest := fun column negated => .isNull column.toEscapedColumn negated
  membership := fun column values negated => .isIn column.toEscapedColumn values negated
  pattern := fun column anchor literal =>
    .like column.toEscapedColumn (anchor.wrap (Like.escaped likeEscape literal)) likeEscape
  order := fun column direction => ⟨column.toEscapedColumn, direction⟩

end Condition

/-- The display form of a sort field. -/
def SortField.display (f : SortField) : String :=
  f.column.text ++ match f.direction with
  | .ascending => " asc"
  | .descending => " desc"

end CriteriaQuery
