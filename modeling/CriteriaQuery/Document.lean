import CriteriaQuery.Criteria.Reader
import CriteriaQuery.Json.Reader
import CriteriaQuery.Sorted.Distinct

/-!
# Query documents

A query document holds criteria, a requested page, sort keys and projected fields. Each part
is a member of one JSON object and may be absent or null; other members are ignored. Parts
are read in this order, and the first fault is reported.
-/

namespace CriteriaQuery

/-- A requested page: its number and, perhaps, its size, both as submitted. -/
structure Pager where
  page : UInt64 := 1
  size : Option UInt64 := none
deriving DecidableEq

/-- The direction of a sort key. -/
inductive SortDirection
  | ascending
  | descending
deriving DecidableEq, Inhabited

/-- A field to sort by. -/
structure SortKey where
  field : String
  direction : SortDirection
deriving DecidableEq

/-- A query document. -/
structure Document where
  criteria : Criteria := .unrestricted
  pager : Pager := {}
  sorter : List SortKey := []
  projection : List String := []
deriving DecidableEq

namespace SortDirection

/-- The keyword of a direction. -/
def keyword : SortDirection → String
  | .ascending => "ASC"
  | .descending => "DESC"

/-- The direction that a token names, in any letter case. -/
def ofToken? (token : String) : Option SortDirection :=
  if token.toUpper = "ASC" then some .ascending
  else if token.toUpper = "DESC" then some .descending
  else none

end SortDirection

/-- The name in a value that must be a name: a string that is not blank. -/
def fieldName? : Option Json → Option String
  | some (.string s) => if Text.isBlank s then none else some s
  | _ => none

namespace Pager

/-- A count among the members, absent when it is missing or null. -/
def readCount (key : String) (members : List (String × Json)) (path : String) :
    Except DocumentError (Option UInt64) :=
  match Json.member? key members with
  | none | some .null => .ok none
  | some v =>
    match v.count? with
    | some n => .ok (some n)
    | none => .error (.malformed (path ++ "." ++ key) .expectedCount)

/-- The page that a JSON value requests. -/
def read (value : Json) (path : String) : Except DocumentError Pager :=
  match value with
  | .object members => do
    let page ← readCount "page" members path
    let size ← readCount "size" members path
    return ⟨page.getD 1, size⟩
  | _ => .error (.malformed path .expectedObject)

/-- The page as a JSON value. -/
def toJson (p : Pager) : Json :=
  .object (("page", Json.ofUInt64 p.page) ::
    match p.size with
    | some n => [("size", Json.ofUInt64 n)]
    | none => [])

end Pager

namespace SortKey

/-- The direction among the members, ascending when it is missing or null. -/
def readDirection (members : List (String × Json)) (path : String) :
    Except DocumentError SortDirection :=
  match Json.member? "direction" members with
  | none | some .null => .ok .ascending
  | some (.string s) =>
    match SortDirection.ofToken? s with
    | some d => .ok d
    | none => .error (.malformed (path ++ ".direction") (.unknownDirection s))
  | some _ => .error (.malformed (path ++ ".direction") .expectedString)

/-- The sort key that a JSON value is. -/
def read (value : Json) (path : String) : Except DocumentError SortKey :=
  match value with
  | .object members =>
    match fieldName? (Json.member? "field" members) with
    | some field => (readDirection members path).map fun direction => ⟨field, direction⟩
    | none => .error (.malformed (path ++ ".field") .expectedFieldName)
  | _ => .error (.malformed path .expectedObject)

/-- The sort keys of a list, counted from `index`. -/
def readAll (path : String) : Nat → List Json → Except DocumentError (List SortKey)
  | _, [] => .ok []
  | index, item :: rest => do
    let key ← read item (path ++ "[" ++ toString index ++ "]")
    let keys ← readAll path (index + 1) rest
    return key :: keys

/-- The sort key as a JSON value. -/
def toJson (k : SortKey) : Json :=
  .object [("field", .string k.field), ("direction", .string k.direction.keyword)]

end SortKey

namespace Document

/-- The items of a value that must be a list. -/
def items (value : Json) (path : String) : Except DocumentError (List Json) :=
  match value with
  | .array items => .ok items
  | _ => .error (.malformed path .expectedArray)

/-- The field names of a list, counted from `index`. -/
def readNames (path : String) : Nat → List Json → Except DocumentError (List String)
  | _, [] => .ok []
  | index, item :: rest =>
    match fieldName? (some item) with
    | some name => (readNames path (index + 1) rest).map (name :: ·)
    | none => .error (.malformed (path ++ "[" ++ toString index ++ "]") .expectedFieldName)

/-- The sort keys that a JSON value is. -/
def readSorter (value : Json) (path : String) : Except DocumentError (List SortKey) := do
  SortKey.readAll path 0 (← items value path)

/-- The projected fields that a JSON value is, without repeats. -/
def readProjection (value : Json) (path : String) : Except DocumentError (List String) := do
  let names ← readNames path 0 (← items value path)
  return distinct names

/-- A part of a document: its default when it is missing or null. -/
def readPart {α : Type} (key : String) (default : α)
    (read : Json → String → Except DocumentError α) (members : List (String × Json)) :
    Except DocumentError α :=
  match Json.member? key members with
  | none | some .null => .ok default
  | some v => read v key

/-- The document that a JSON value is. -/
def ofJson (value : Json) : Except DocumentError Document :=
  match value with
  | .object members => do
    let criteria ← readPart "criteria" Criteria.unrestricted Criteria.read members
    let pager ← readPart "pager" {} Pager.read members
    let sorter ← readPart "sorter" [] readSorter members
    let projection ← readPart "projection" [] readProjection members
    return ⟨criteria, pager, sorter, projection⟩
  | _ => .error (.malformed "$" .expectedObject)

/-- The document that a JSON text is. -/
def ofText (text : String) : Except DocumentError Document :=
  match Json.read? text with
  | some value => ofJson value
  | none => .error (.malformed "$" .unreadableText)

/-- The document as a JSON value. -/
def toJson (d : Document) : Json :=
  .object [("criteria", d.criteria.toJson), ("pager", d.pager.toJson),
    ("sorter", .array (d.sorter.map SortKey.toJson)),
    ("projection", .array (d.projection.map .string))]

end Document

end CriteriaQuery
