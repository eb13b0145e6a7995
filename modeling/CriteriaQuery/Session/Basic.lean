import CriteriaQuery.Compile.Query

/-!
# Sessions

A session is what documents are compiled against, built once for a data source, a join
description, a dialect and page limits: the join graph, and the registry of the names of all
its tables. A key carries everything that a session is built from, beside what it will be
used for and the entities that take part.
-/

namespace CriteriaQuery

/-- Everything that distinguishes sessions. -/
structure SessionKey where
  source : String
  entities : SortedSet String
  description : JoinDescription
  target : Target
  dialect : Dialect
  limits : PageLimits
deriving DecidableEq

/-- The key of a session, with the entities that its description names. -/
def SessionKey.of (source : String) (description : JoinDescription) (target : Target)
    (dialect : Dialect) (limits : PageLimits) : SessionKey :=
  ⟨source, SortedSet.ofList description.entities, description, target, dialect, limits⟩

/-- A scope with what it was built from. -/
structure Session extends Scope where
  source : String
  description : JoinDescription

namespace Session

/-- Registers the tables of a list in order. -/
def registerAll : List TableNode → AliasRegistry → Except CatalogError AliasRegistry
  | [], r => .ok r
  | n :: rest, r => do
    let r ← r.register n.table n.fields n.aliases
    registerAll rest r

/-- The session of a join graph. -/
def ofGraph (graph : JoinGraph) (source : String) (description : JoinDescription)
    (dialect : Dialect) (limits : PageLimits) : Except CatalogError Session := do
  let registry ← registerAll graph.nodes ∅
  return { registry, graph, dialect, limits, source, description }

/-- The session of a description, with the builder that its graph was made by. -/
def build (load : NodeLoader) (source : String) (description : JoinDescription)
    (dialect : Dialect) (limits : PageLimits) : Except CatalogError Session × GraphBuilder :=
  match GraphBuilder.build load source description {} with
  | (.error e, b) => (.error e, b)
  | (.ok graph, b) => (ofGraph graph source description dialect limits, b)

/-- The session that a key stands for. -/
def ofKey (load : NodeLoader) (key : SessionKey) : Except CatalogError Session :=
  (build load key.source key.description key.dialect key.limits).1

/-- The key of a session for a target. -/
def keyFor (s : Session) (target : Target) : SessionKey :=
  .of s.source s.description target s.dialect s.limits

end Session

end CriteriaQuery
