import CriteriaQuery.Catalog.Column
import CriteriaQuery.Catalog.Error

/-!
# Alias registry

The registry says which column a name means. Every field and alias of a table is registered
under its bare name and under its name qualified by the table. A bare field name that
several tables declare is *shared* and resolves only when qualified; an explicit alias
belongs to one table and is refused when its name is in use by another. Beside the look-up
of names stands the index of all names of a column.

## Implementation notes

Bare and qualified names live in one map. Registering is a fold over the fields and then
over the aliases, both in ascending order of their names; a failing step discards the fold,
so the registry a caller holds is left as it was.
-/

namespace CriteriaQuery

/-- The names registered so far. -/
structure AliasRegistry where
  /-- Bare or qualified name to column. -/
  owners : SortedMap String ColumnRef
  /-- Bare field names declared by several tables, with these tables. -/
  shared : SortedMap String (SortedSet String)
  /-- Explicit aliases with their table. -/
  explicit : SortedMap String String
  /-- Columns with the bare names they are known by. -/
  aliases : SortedMap ColumnRef (SortedSet String)
deriving DecidableEq

/-- The fields or the aliases of a table: names with what they stand for. -/
abbrev NameMap := SortedMap String String

namespace AliasRegistry

/-- The registry without names. -/
def empty : AliasRegistry := ⟨∅, ∅, ∅, ∅⟩

instance : EmptyCollection AliasRegistry := ⟨empty⟩

/-- The part of a name after its last point; all of it when there is none. -/
def barePart (name : String) : String :=
  String.ofList ((name.toList.reverse.takeWhile (· ≠ '.')).reverse)

/-- Removes a bare name from those of a column. -/
def dropName (r : AliasRegistry) (column : ColumnRef) (name : String) : AliasRegistry :=
  match r.aliases.get? column with
  | some names => { r with aliases := r.aliases.insert column (names.remove name) }
  | none => r

/-- Adds a bare name to those of a column. -/
def addName (r : AliasRegistry) (column : ColumnRef) (name : String) : AliasRegistry :=
  { r with aliases := r.aliases.insert column (((r.aliases.get? column).getD ∅).add name) }

/-- Makes a name mean a column; the column it meant before loses the bare name. -/
def rebind (r : AliasRegistry) (name : String) (column : ColumnRef) : AliasRegistry :=
  let r' := { r with owners := r.owners.insert name column }
  match r.owners.get? name with
  | some previous => if previous = column then r' else r'.dropName previous (barePart name)
  | none => r'

/-- Makes a bare field name mean a column, or share it when another table has it. -/
def claimField (r : AliasRegistry) (field : String) (column : ColumnRef) : AliasRegistry :=
  match r.shared.get? field with
  | some tables => { r with shared := r.shared.insert field (tables.add column.table) }
  | none =>
    match r.owners.get? field with
    | some existing =>
      if existing.table = column.table then r.rebind field column
      else
        { r with
          owners := r.owners.erase field
          shared := r.shared.insert field (SortedSet.ofList [existing.table, column.table]) }
    | none => r.rebind field column

/-- Registers a field of a table. -/
def registerField (r : AliasRegistry) (table field name : String) :
    Except CatalogError AliasRegistry :=
  let column : ColumnRef := ⟨table, name⟩
  let registered :=
    ((r.claimField field column).rebind (ColumnRef.qualify table field) column).addName column field
  match r.explicit.get? field with
  | some owner =>
    if owner = table then .ok registered else .error (.ambiguousAlias field owner table)
  | none => .ok registered

/-- The table that keeps another table from using a name as an explicit alias. -/
def aliasRival? (r : AliasRegistry) (table given : String) : Option String :=
  match r.explicit.get? given with
  | some owner => if owner = table then sharedRival else some owner
  | none => sharedRival
where
  /-- The first table that shares the name, or else its owner when it is another table. -/
  sharedRival : Option String :=
    match r.shared.get? given with
    | some tables => some (tables.toList.head?.getD "")
    | none =>
      match r.owners.get? given with
      | some existing => if existing.table = table then none else some existing.table
      | none => none

/-- Registers an alias of a table for one of its names. -/
def registerAlias (r : AliasRegistry) (table given field : String) :
    Except CatalogError AliasRegistry :=
  match r.owners.get? (ColumnRef.qualify table field) with
  | none => .error (.unresolvedField (ColumnRef.qualify table field))
  | some column =>
    match r.aliasRival? table given with
    | some rival => .error (.ambiguousAlias given rival table)
    | none =>
      let bound := (r.rebind given column).rebind (ColumnRef.qualify table given) column
      .ok ({ bound with explicit := bound.explicit.insert given table }.addName column given)

/-- Registers the fields of a list in order. -/
def registerFields (table : String) :
    List (String × String) → AliasRegistry → Except CatalogError AliasRegistry
  | [], r => .ok r
  | (field, name) :: rest, r => do
    let r ← r.registerField table field name
    registerFields table rest r

/-- Registers the aliases of a list in order. -/
def registerAliases (table : String) :
    List (String × String) → AliasRegistry → Except CatalogError AliasRegistry
  | [], r => .ok r
  | (given, field) :: rest, r => do
    let r ← r.registerAlias table given field
    registerAliases table rest r

/-- Registers a table: all its fields, then all its aliases. -/
def register (r : AliasRegistry) (table : String) (fields aliases : NameMap) :
    Except CatalogError AliasRegistry := do
  let r ← registerFields table fields.entries r
  registerAliases table aliases.entries r

/-- The column that a name means. -/
def resolve (r : AliasRegistry) (name : String) : Except CatalogError ColumnRef :=
  match r.owners.get? name with
  | some column => .ok column
  | none =>
    match r.shared.get? name with
    | some tables =>
      .error (.ambiguousAlias name (tables.toList.head?.getD "")
        ((tables.toList.drop 1).head?.getD ""))
    | none => .error (.unresolvedField name)

/-- The table that a name belongs to. -/
def resolveTable (r : AliasRegistry) (name : String) : Except CatalogError String :=
  (r.resolve name).map (·.table)

/-- The bare names that a column is known by. -/
def aliasesOf? (r : AliasRegistry) (column : ColumnRef) : Option (List String) :=
  (r.aliases.get? column).map SortedSet.toList

/-- Whether a name is in use, shared or not. -/
def contains (r : AliasRegistry) (name : String) : Bool :=
  r.owners.contains name || r.shared.contains name

/-- The tables that have columns, in ascending order. -/
def tables (r : AliasRegistry) : List String :=
  (SortedSet.ofList (r.aliases.keys.map (·.table))).toList

theorem resolve_eq_ok_iff {r : AliasRegistry} {name : String} {column : ColumnRef} :
    r.resolve name = .ok column ↔ r.owners.get? name = some column := by
  unfold resolve
  split
  · next c h => simp [h]
  · next h =>
    split <;> simp [h]

end AliasRegistry

end CriteriaQuery
