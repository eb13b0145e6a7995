import CriteriaQuery.Compile.Like
import CriteriaQuery.Compile.Query
import CriteriaQuery.Text.Joined

/-!
# SQL statements

Predicates as SQL text with a placeholder for each parameter, and whole `SELECT` statements.
A predicate that joins several conditions is put in parentheses where it is a part of
another one.
-/

namespace CriteriaQuery

/-- SQL text and the parameters of its placeholders in order. -/
structure SqlFragment where
  text : String
  params : List Scalar
  /-- Whether the text joins several conditions. -/
  compound : Bool := false
deriving DecidableEq

namespace SqlFragment

/-- The text of a fragment as a part of another one. -/
def nested (f : SqlFragment) : String := if f.compound then "(" ++ f.text ++ ")" else f.text

/-- Text with question marks replaced by texts of a list as long as it lasts. -/
def fill : List Char → List String → List Char
  | [], _ => []
  | c :: cs, [] => c :: fill cs []
  | c :: cs, p :: ps => if c = '?' then p.toList ++ fill cs ps else c :: fill cs (p :: ps)

/-- The text with parameters in the place of question marks, for reading only. -/
def debugText (f : SqlFragment) : String :=
  String.ofList (fill f.text.toList (f.params.map Scalar.display))

end SqlFragment

namespace Sql

/-- The escape character of patterns, which both dialects take by default. -/
def likeEscape : Char := '\\'

/-- Fragments joined by a connector. -/
def combine (connector : Connector) (parts : List SqlFragment) : SqlFragment where
  text := Text.joined (" " ++ connector.literal ++ " ") (parts.map SqlFragment.nested)
  params := parts.flatMap SqlFragment.params
  compound := true

/-- A column compared with a parameter. -/
def compare (column : ResolvedColumn) (op : Comparison) (value : Scalar) : SqlFragment where
  text := column.text ++ " " ++ op.literal ++ " ?"
  params := [value]

/-- A column tested for absence. -/
def nullTest (column : ResolvedColumn) (negated : Bool) : SqlFragment where
  text := column.text ++ if negated then " IS NOT NULL" else " IS NULL"
  params := []

/-- A column tested for one of several parameters. -/
def membership (column : ResolvedColumn) (values : List Scalar) (negated : Bool) : SqlFragment where
  text := column.text ++ (if negated then " NOT IN (" else " IN (") ++
    Text.joined ", " (values.map fun _ => "?") ++ ")"
  params := values

/-- A column tested for a literal at an anchor. -/
def pattern (column : ResolvedColumn) (anchor : Anchor) (literal : String) : SqlFragment where
  text := column.text ++ " LIKE ?"
  params := [.text (anchor.wrap (Like.escaped likeEscape literal))]

/-- A column to sort by. -/
def order (column : ResolvedColumn) (direction : SortDirection) : String :=
  column.text ++ " " ++ direction.keyword

/-- The backend that makes SQL text. -/
def backend : Backend SqlFragment String where
  alwaysTrue := ⟨"1 = 1", [], false⟩
  alwaysFalse := ⟨"1 = 0", [], false⟩
  combine := combine
  compare := compare
  nullTest := nullTest
  membership := membership
  pattern := pattern
  order := order

/-- The columns of a statement, all of them when none is named. -/
def columnsText (columns : List ResolvedColumn) : String :=
  match columns with
  | [] => "*"
  | _ => Text.joined ", " (columns.map (·.text))

/-- A join of a statement, with the blank before it. -/
def joinText (j : JoinClause) : String :=
  " " ++ j.kind.keyword ++ " " ++ j.table ++ " ON " ++ j.left ++ " = " ++ j.right

/-- The sort keys of a statement, with the blank before them. -/
def orderText (keys : List String) : String :=
  match keys with
  | [] => ""
  | _ => " ORDER BY " ++ Text.joined ", " keys

/-- The whole statement of a compiled query. -/
def select (q : Compiled SqlFragment String) : SqlFragment where
  text := "SELECT " ++ columnsText q.projection ++ " FROM " ++ q.source ++
    String.join (q.joins.map joinText) ++ " WHERE " ++ q.predicate.text ++ orderText q.orderBy ++
    " LIMIT " ++ toString q.window.limit.toNat ++ " OFFSET " ++ toString q.window.offset.toNat
  params := q.predicate.params

end Sql

end CriteriaQuery
