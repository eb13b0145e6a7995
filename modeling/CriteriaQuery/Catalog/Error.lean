/-!
# Errors of catalogs and name resolution

Why a name does not resolve, a join graph cannot be built, or a catalog is refused, and how
each cause is worded.
-/

namespace CriteriaQuery

/-- What is wrong with the tables of a catalog. -/
inductive CatalogFlaw
  | blankTable (entity : String)
  | repeatedEntity (entity : String)
  | repeatedTable (table : String)
  | noFields (entity : String)
  | danglingAlias (name entity field : String)
deriving DecidableEq

/-- Why a catalog operation fails. -/
inductive CatalogError
  | unresolvedField (field : String)
  | ambiguousAlias (name firstTable secondTable : String)
  | unknownEntity (entity : String)
  | unknownJoinField (entity field : String)
  | disconnectedJoin (entity : String)
  | repeatedJoinEntity (entity : String)
  | unreadableFile (path reason : String)
  | unreadableText
  | flawed (flaw : CatalogFlaw)
deriving DecidableEq

/-- A name between back quotes. -/
def ticked (name : String) : String := "`" ++ name ++ "`"

/-- The wording of a flaw. -/
def CatalogFlaw.text : CatalogFlaw → String
  | .blankTable entity => "entity " ++ ticked entity ++ " has an empty table name"
  | .repeatedEntity entity => "entity " ++ ticked entity ++ " is declared twice"
  | .repeatedTable table => "table " ++ ticked table ++ " is mapped by more than one entity"
  | .noFields entity => "entity " ++ ticked entity ++ " declares no fields"
  | .danglingAlias name entity field =>
    "alias " ++ ticked name ++ " of entity " ++ ticked entity ++ " points at unknown field " ++
      ticked field

/-- The wording of an error. -/
def CatalogError.message : CatalogError → String
  | .unresolvedField field =>
    "Field or alias " ++ ticked field ++ " is not registered in this session"
  | .ambiguousAlias name first second =>
    "Alias " ++ ticked name ++ " is claimed by both " ++ ticked first ++ " and " ++
      ticked second ++ "; qualify it as " ++ ticked ("table." ++ name)
  | .unknownEntity entity => "No table is configured for entity " ++ ticked entity
  | .unknownJoinField entity field =>
    "Entity " ++ ticked entity ++ " has no field or alias " ++ ticked field
  | .disconnectedJoin entity =>
    "Join on " ++ ticked entity ++ " does not connect to any table already in the graph"
  | .repeatedJoinEntity entity =>
    "Entity " ++ ticked entity ++ " is joined into the graph a second time"
  | .unreadableFile path reason => "Failed to read catalog file: " ++ path ++ ": " ++ reason
  | .unreadableText => "Failed to parse catalog: the text does not describe a catalog"
  | .flawed flaw => "Invalid catalog: " ++ flaw.text

end CriteriaQuery
