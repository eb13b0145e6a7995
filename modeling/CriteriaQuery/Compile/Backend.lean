import CriteriaQuery.Catalog.Basic
import CriteriaQuery.Compile.Page
import CriteriaQuery.Dialect.Basic

/-!
# Scopes and backends

A scope holds what names of a document are resolved against: the registry of names, the join
graph, the dialect and the page limits. A backend says what the parts of a query are turned
into; what is resolved, in which order, and what is left out is the same for every backend.
-/

namespace CriteriaQuery

/-- A column as the dialect writes it. -/
structure EscapedColumn where
  column : ColumnRef
  text : String
deriving DecidableEq

/-- A column with the name that the document gives it. -/
structure ResolvedColumn extends EscapedColumn where
  field : String
deriving DecidableEq

/-- What a document is compiled against. -/
structure Scope where
  registry : AliasRegistry
  graph : JoinGraph
  dialect : Dialect
  limits : PageLimits

namespace Scope

/-- The column that a name means, written with its table. -/
def resolve (s : Scope) (field : String) : Except CatalogError ResolvedColumn := do
  let column ← s.registry.resolve field
  return { column, text := s.dialect.escape column.column (some column.table), field }

end Scope

/-- What queries can be compiled for. -/
inductive Target
  | sql
  | condition
deriving DecidableEq

namespace Target

/-- The name of a target. -/
def name : Target → String
  | .sql => "sql"
  | .condition => "condition"

/-- The target that a token names, in any letter case. -/
def ofToken? (token : String) : Option Target :=
  if token.toLower = "sql" then some .sql
  else if token.toLower = "condition" then some .condition
  else none

end Target

/-- What the parts of a query become. -/
structure Backend (Predicate Order : Type) where
  alwaysTrue : Predicate
  alwaysFalse : Predicate
  /-- Joins two or more predicates. -/
  combine : Connector → List Predicate → Predicate
  compare : ResolvedColumn → Comparison → Scalar → Predicate
  /-- Tests for absence, or for presence when negated. -/
  nullTest : ResolvedColumn → Bool → Predicate
  /-- Tests for one of the values, of which there is at least one, or for none when negated. -/
  membership : ResolvedColumn → List Scalar → Bool → Predicate
  /-- Tests for a literal text at an anchor; the backend escapes its own wildcards. -/
  pattern : ResolvedColumn → Anchor → String → Predicate
  order : ResolvedColumn → SortDirection → Order

/-- Why a document cannot be compiled. -/
inductive CompileError
  | document (error : DocumentError)
  | catalog (error : CatalogError)
  | leaf (field : String) (source : CatalogError)
  | unknownDialect (token : String)
  | unknownTarget (token : String)
deriving DecidableEq

namespace CompileError

/-- The wording of an error. -/
def message : CompileError → String
  | .document e => e.message
  | .catalog e => e.message
  | .leaf field source =>
    "Criteria leaf on " ++ ticked field ++ " could not be compiled: " ++ source.message
  | .unknownDialect token => "Unknown dialect " ++ ticked token ++ " (expected mysql or postgres)"
  | .unknownTarget token => "Unknown backend " ++ ticked token ++ " (expected sql or condition)"

/-- The error of the catalog behind an error. -/
def catalogError? : CompileError → Option CatalogError
  | .catalog e => some e
  | .leaf _ e => some e
  | _ => none

/-- Whether a name is not registered. -/
def isUnresolvedField (e : CompileError) : Bool :=
  match e.catalogError? with
  | some (.unresolvedField _) => true
  | _ => false

/-- Whether a name belongs to several tables. -/
def isAmbiguousAlias (e : CompileError) : Bool :=
  match e.catalogError? with
  | some (.ambiguousAlias _ _ _) => true
  | _ => false

end CompileError

end CriteriaQuery
