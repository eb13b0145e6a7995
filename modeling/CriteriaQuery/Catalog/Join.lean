import CriteriaQuery.Sorted.Distinct

/-!
# Join descriptions

Which entities take part in a query and how they are joined: a root entity and, in order,
equality joins between a field of one entity and a field of another.
-/

namespace CriteriaQuery

/-- How a joined table's missing rows are treated. -/
inductive JoinKind
  | inner
  | left
deriving DecidableEq, Inhabited

/-- A field, or an alias, of an entity. -/
structure FieldRef where
  entity : String
  field : String
deriving DecidableEq

/-- An equality join that brings its right entity into the query. -/
structure JoinSpec where
  left : FieldRef
  right : FieldRef
  kind : JoinKind
deriving DecidableEq

/-- A root entity and the joins from there. -/
structure JoinDescription where
  root : String
  joins : List JoinSpec
deriving DecidableEq

/-- The name of a join kind. -/
def JoinKind.name : JoinKind → String
  | .inner => "inner"
  | .left => "left"

/-- The SQL keywords of a join kind. -/
def JoinKind.keyword : JoinKind → String
  | .inner => "INNER JOIN"
  | .left => "LEFT JOIN"

/-- The join kind of a name. -/
def JoinKind.ofName? (name : String) : Option JoinKind :=
  if name = "inner" then some .inner else if name = "left" then some .left else none

namespace JoinDescription

/-- The entities named, from the root on, with repeats. -/
def mentions (d : JoinDescription) : List String :=
  d.root :: d.joins.flatMap fun j => [j.left.entity, j.right.entity]

/-- The entities named, each once, the root first. -/
def entities (d : JoinDescription) : List String := distinct d.mentions

end JoinDescription

end CriteriaQuery
