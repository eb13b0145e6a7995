import CriteriaQuery.Catalog.Basic
import CriteriaQuery.Yaml.Readable

/-!
# Reading catalogs

The shape of catalogs, tables and joins in a data format. Aliases, joins and the kind of a
join have defaults; every other member must be there. What has the right shape need not be a
valid catalog; a catalog that is read from a YAML text is validated as well.
-/

namespace CriteriaQuery

open Readable

variable {ν : Type} [Readable ν]

/-- A map from names to names, of which the last for a name counts. -/
def NameMap.read? (v : ν) : Reading NameMap := SortedMap.ofList <$> textEntries? v

/-- A field of an entity. -/
def FieldRef.read? (v : ν) : Reading FieldRef := do
  let members ← record? ["entity", "field"] v
  let entity ← required "entity" text? members
  let field ← required "field" text? members
  return ⟨entity, field⟩

/-- The kind of a join. -/
def JoinKind.read? (v : ν) : Reading JoinKind := do
  JoinKind.ofName? (← choice? v)

/-- A join; an inner one when no kind is given. -/
def JoinSpec.read? (v : ν) : Reading JoinSpec := do
  let members ← record? ["left", "right", "kind"] v
  let left ← required "left" FieldRef.read? members
  let right ← required "right" FieldRef.read? members
  let kind ← optional "kind" .inner JoinKind.read? members
  return ⟨left, right, kind⟩

/-- A table; without aliases when none are given. -/
def TableNode.read? (v : ν) : Reading TableNode := do
  let members ← record? ["entity", "table", "fields", "aliases"] v
  let entity ← required "entity" text? members
  let table ← required "table" text? members
  let fields ← required "fields" NameMap.read? members
  let aliases ← optional "aliases" ∅ NameMap.read? members
  return ⟨entity, table, fields, aliases⟩

/-- A catalog; without joins when none are given. -/
def Catalog.read? (v : ν) : Reading Catalog := do
  let members ← record? ["root", "tables", "joins"] v
  let root ← required "root" text? members
  let tables ← required "tables" (listOf? TableNode.read?) members
  let joins ← optional "joins" [] (listOf? JoinSpec.read?) members
  return ⟨root, tables, joins⟩

/-- The valid catalog that a YAML text describes. -/
def Catalog.ofText (text : String) : Except CatalogError Catalog :=
  match Yaml.readAs? Catalog.read? text with
  | some c => c.validate.map fun _ => c
  | none => .error .unreadableText

end CriteriaQuery
