import CriteriaQuery.Catalog.Graph
import CriteriaQuery.Text.Blank

/-!
# Catalogs

A catalog declares tables, each mapped to an entity, and how they are joined from a root
entity on. It is valid when entities and tables are declared once, tables have names and
fields, aliases stand for declared fields, and every join names declared ends and brings in
a new entity. A catalog is itself a loader of its tables.
-/

namespace CriteriaQuery

/-- The declared tables and the joins from a root entity. -/
structure Catalog where
  root : String
  tables : List TableNode
  joins : List JoinSpec
deriving DecidableEq

namespace Catalog

/-- The table of an entity. -/
def tableFor (c : Catalog) (entity : String) : Except CatalogError TableNode :=
  match c.tables.find? fun t => t.entity = entity with
  | some t => .ok t
  | none => .error (.unknownEntity entity)

/-- The first alias, in ascending order, that stands for a field the table does not declare. -/
def danglingAlias? (t : TableNode) : Option (String × String) :=
  t.aliases.entries.find? fun a => !t.fields.contains a.2

/-- The first flaw of a table, given the entities and tables declared before it. -/
def tableFlaw? (entities tables : List String) (t : TableNode) : Option CatalogFlaw :=
  if Text.isBlank t.table then some (.blankTable t.entity)
  else if t.entity ∈ entities then some (.repeatedEntity t.entity)
  else if t.table ∈ tables then some (.repeatedTable t.table)
  else if t.fields.isEmpty then some (.noFields t.entity)
  else (danglingAlias? t).map fun a => .danglingAlias a.1 t.entity a.2

/-- Checks tables in order, given the entities and tables declared before them. -/
def checkTables : List String → List String → List TableNode → Except CatalogError Unit
  | _, _, [] => .ok ()
  | entities, tables, t :: rest =>
    match tableFlaw? entities tables t with
    | some flaw => .error (.flawed flaw)
    | none => checkTables (t.entity :: entities) (t.table :: tables) rest

/-- Checks that one end of a join names a declared entity and a name of its table. -/
def checkEnd (c : Catalog) (ref : FieldRef) : Except CatalogError Unit :=
  match c.tableFor ref.entity with
  | .error e => .error e
  | .ok t =>
    if (t.canonicalField? ref.field).isSome then .ok ()
    else .error (.unknownJoinField ref.entity ref.field)

/-- Checks joins in order, given the entities that are joined already. -/
def checkJoins (c : Catalog) : List String → List JoinSpec → Except CatalogError Unit
  | _, [] => .ok ()
  | joined, j :: rest =>
    if j.left.entity = j.right.entity ∨ j.right.entity ∈ joined then
      .error (.repeatedJoinEntity j.right.entity)
    else do
      c.checkEnd j.left
      c.checkEnd j.right
      c.checkJoins (j.right.entity :: joined) rest

/-- Checks the whole catalog: its tables, its root, its joins. -/
def validate (c : Catalog) : Except CatalogError Unit := do
  checkTables [] [] c.tables
  let _ ← c.tableFor c.root
  c.checkJoins [c.root] c.joins

/-- The join description that a catalog carries. -/
def joinDescription (c : Catalog) : JoinDescription := ⟨c.root, c.joins⟩

/-- Supplies a declared table; a field asked for must be a name of it. -/
def load (c : Catalog) : NodeLoader := fun request => do
  let t ← c.tableFor request.entity
  match request.field with
  | none => return t
  | some field =>
    if (t.canonicalField? field).isSome then return t
    else .error (.unknownJoinField request.entity field)

/-- Supplies a declared table, whatever field is asked for. -/
def loadAnyField (c : Catalog) : NodeLoader := fun request =>
  c.load { request with field := none }

end Catalog

end CriteriaQuery
