import CriteriaQuery.Compile.Backend

/-!
# Compiled queries

A document is compiled in a fixed order: the joins of the graph, the projection, the
criteria, the sort keys, the page. A name that does not resolve in the first three is an
error, and the first one is reported. A sort key that does not resolve, or whose column an
earlier key sorts by, is left out with a warning.
-/

namespace CriteriaQuery

/-- What is worth knowing about a query that was compiled all the same. -/
inductive CompileWarning
  | unresolvedSortField (field : String) (reason : CatalogError)
  | duplicateSortField (field : String)
deriving DecidableEq

namespace CompileWarning

/-- The wording of a warning. -/
def message : CompileWarning → String
  | .unresolvedSortField field reason =>
    "sort field " ++ ticked field ++ " skipped: " ++ reason.message
  | .duplicateSortField field =>
    "sort field " ++ ticked field ++ " repeats an earlier sort key and was ignored"

/-- The sort field that a warning is about. -/
def field : CompileWarning → String
  | .unresolvedSortField field _ => field
  | .duplicateSortField field => field

end CompileWarning

/-- A join as the dialect writes it. -/
structure JoinClause where
  kind : JoinKind
  table : String
  left : String
  right : String
deriving DecidableEq

/-- All parts of a compiled query. -/
structure Compiled (Predicate Order : Type) where
  /-- The root table as the dialect writes it. -/
  source : String
  joins : List JoinClause
  projection : List ResolvedColumn
  predicate : Predicate
  orderBy : List Order
  window : PageWindow
  warnings : List CompileWarning

/-- What becomes of a sort key. -/
inductive SortOutcome
  | kept (column : ResolvedColumn) (direction : SortDirection)
  | dropped (warning : CompileWarning)

namespace SortOutcome

/-- The column and direction of a key that is kept. -/
def kept? : SortOutcome → Option (ResolvedColumn × SortDirection)
  | .kept column direction => some (column, direction)
  | .dropped _ => none

/-- The warning about a key that is left out. -/
def warning? : SortOutcome → Option CompileWarning
  | .kept _ _ => none
  | .dropped w => some w

end SortOutcome

namespace Scope

variable {Predicate Order : Type}

/-- The columns of names in order. -/
def resolveAll (s : Scope) : List String → Except CatalogError (List ResolvedColumn)
  | [] => .ok []
  | field :: rest => do
    let column ← s.resolve field
    let columns ← s.resolveAll rest
    return column :: columns

/-- The clause of one join. -/
def joinClause (s : Scope) (l : JoinLink) : Except CatalogError JoinClause := do
  let left ← s.resolve (ColumnRef.qualify l.on.fromTable l.on.fromField)
  let right ← s.resolve (ColumnRef.qualify l.on.toTable l.on.toField)
  return ⟨l.kind, s.dialect.escape l.right.table none, left.text, right.text⟩

/-- The clauses of joins in order. -/
def joinClauses (s : Scope) : List JoinLink → Except CatalogError (List JoinClause)
  | [] => .ok []
  | l :: rest => do
    let clause ← s.joinClause l
    let clauses ← s.joinClauses rest
    return clause :: clauses

/-- The predicate of a leaf. A value whose shape does not fit matches nothing; a list test
takes a single value for a list of one, and without values its outcome is fixed. -/
def leafPredicate (backend : Backend Predicate Order) (column : ResolvedColumn) (op : Operator)
    (value : LeafValue) : Predicate :=
  match op, value with
  | .comparison c, .one v => backend.compare column c v
  | .nullTest negated, _ => backend.nullTest column negated
  | .membership negated, value =>
    match value.toList with
    | [] => if negated then backend.alwaysTrue else backend.alwaysFalse
    | values => backend.membership column values negated
  | .pattern anchor, .one v => backend.pattern column anchor v.bareText
  | _, _ => backend.alwaysFalse

/-- The predicate of a group: of none always true, of one that one, of more their combination. -/
def groupPredicate (backend : Backend Predicate Order) (connector : Connector) :
    List Predicate → Predicate
  | [] => backend.alwaysTrue
  | [part] => part
  | parts => backend.combine connector parts

mutual

/-- The predicate of a criteria tree. -/
def compileCriteria (s : Scope) (backend : Backend Predicate Order) :
    Criteria → Except CompileError Predicate
  | .group connector children => do
    let parts ← s.compileAll backend children
    return groupPredicate backend connector parts
  | .leaf field op value =>
    match s.resolve field with
    | .ok column => .ok (leafPredicate backend column op value)
    | .error e => .error (.leaf field e)

/-- The predicates of criteria trees in order. -/
def compileAll (s : Scope) (backend : Backend Predicate Order) :
    List Criteria → Except CompileError (List Predicate)
  | [] => .ok []
  | c :: cs => do
    let part ← s.compileCriteria backend c
    let parts ← s.compileAll backend cs
    return part :: parts

end

/-- What becomes of sort keys in order, given the columns sorted by already. -/
def sortOutcomes (s : Scope) : List ColumnRef → List SortKey → List SortOutcome
  | _, [] => []
  | seen, key :: rest =>
    match s.resolve key.field with
    | .error e => .dropped (.unresolvedSortField key.field e) :: s.sortOutcomes seen rest
    | .ok column =>
      if column.column ∈ seen then
        .dropped (.duplicateSortField key.field) :: s.sortOutcomes seen rest
      else .kept column key.direction :: s.sortOutcomes (column.column :: seen) rest

/-- An error of the catalog as one of compilation. -/
def lift {α : Type} : Except CatalogError α → Except CompileError α
  | .ok a => .ok a
  | .error e => .error (.catalog e)

/-- The compiled query of a document. -/
def compile (s : Scope) (backend : Backend Predicate Order) (d : Document) :
    Except CompileError (Compiled Predicate Order) := do
  let joins ← lift (s.joinClauses s.graph.links)
  let projection ← lift (s.resolveAll d.projection)
  let predicate ← s.compileCriteria backend d.criteria
  let outcomes := s.sortOutcomes [] d.sorter
  return {
    source := s.dialect.escape s.graph.root.table none
    joins
    projection
    predicate
    orderBy := (outcomes.filterMap SortOutcome.kept?).map fun k => backend.order k.1 k.2
    window := PageWindow.ofPager d.pager s.limits
    warnings := outcomes.filterMap SortOutcome.warning? }

end Scope

end CriteriaQuery
