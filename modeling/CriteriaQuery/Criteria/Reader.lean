import CriteriaQuery.Criteria.Basic
import CriteriaQuery.Criteria.Fault
import CriteriaQuery.Text.Blank

/-!
# Reading criteria

A node of a criteria tree is a JSON object. With a member `connector` it is a group, whose
`children` are read in order; otherwise it is a leaf with the members `field`, `op` and
`value`, and the value must have the shape that the operator takes. The first fault in
document order is reported with its place.

## Implementation notes

The place of a node is a text that the caller starts and each level extends; it decides
nothing but the wording of errors.
-/

namespace CriteriaQuery

/-- The shape of a JSON value that does not fit. -/
def FoundValue.ofJson : Json → FoundValue
  | .null => .nothing
  | .array items => .list items.length
  | .object _ => .object
  | _ => .scalar

namespace LeafValue

/-- The scalars of a list, counted from `index`. -/
def readScalars (path : String) : Nat → List Json → Except DocumentError (List Scalar)
  | _, [] => .ok []
  | index, item :: rest =>
    match Scalar.ofJson? item with
    | none => .error (.malformed (path ++ "[" ++ toString index ++ "]") .expectedScalar)
    | some v => (readScalars path (index + 1) rest).map (v :: ·)

/-- The value of a leaf, in the shape that its operator takes. -/
def read (op : Operator) (expected : Arity) (raw : Json) (path : String) :
    Except DocumentError LeafValue :=
  let misfit := Except.error (.misfitValue path op expected (.ofJson raw))
  match expected with
  | .none =>
    match raw with
    | .null => .ok .absent
    | _ => misfit
  | .one =>
    match Scalar.ofJson? raw with
    | some v => .ok (.one v)
    | none => misfit
  | .many =>
    match raw with
    | .array items => (readScalars path 0 items).map .many
    | _ => misfit

end LeafValue

namespace Criteria

/-- The field name of a leaf. -/
def readField (members : List (String × Json)) (path : String) : Except DocumentError String :=
  match Json.member? "field" members with
  | some (.string s) =>
    if Text.isBlank s then .error (.malformed (path ++ ".field") .blankFieldName) else .ok s
  | some _ => .error (.malformed (path ++ ".field") .expectedString)
  | none => .error (.malformed (path ++ ".field") .missingKey)

/-- The operator of a token. -/
def readToken (token : String) : Except DocumentError Operator :=
  match Operator.ofLiteral? token with
  | some op => .ok op
  | none => .error (.unknownOperator token)

/-- The operator of a leaf with the arity that it takes. -/
def readOperator (members : List (String × Json)) (path : String) :
    Except DocumentError (Operator × Arity) :=
  match Json.member? "op" members with
  | some (.string token) => do
    let op ← readToken token
    match op.arity? with
    | some arity => return (op, arity)
    | none => .error (.malformed (path ++ ".op") (.connectorOnLeaf op))
  | some _ => .error (.malformed (path ++ ".op") .expectedString)
  | none => .error (.malformed (path ++ ".op") .missingKey)

/-- A leaf: its field, then its operator, then its value, which is null when absent. -/
def readLeaf (members : List (String × Json)) (path : String) : Except DocumentError Criteria := do
  let field ← readField members path
  let (op, arity) ← readOperator members path
  let raw := (Json.member? "value" members).getD .null
  let value ← LeafValue.read op arity raw (path ++ ".value")
  return .leaf field op value

/-- The connector of a group. -/
def readConnector (members : List (String × Json)) (path : String) :
    Except DocumentError Connector :=
  match Json.member? "connector" members with
  | some (.string token) => do
    let op ← readToken token
    match op.connector? with
    | some c => return c
    | none => .error (.malformed (path ++ ".connector") (.notConnector op))
  | _ => .error (.malformed (path ++ ".connector") .expectedString)

mutual

/-- The criteria tree that a JSON value at a place of the document is. -/
def read (value : Json) (path : String) : Except DocumentError Criteria :=
  match value with
  | .object members =>
    if Json.hasMember "connector" members then do
      let connector ← readConnector members path
      match _h : Json.member? "children" members with
      | none | some .null => return .group connector []
      | some (.array items) =>
        let children ← readAll items (path ++ ".children") 0
        return .group connector children
      | some _ => .error (.malformed (path ++ ".children") .expectedArray)
    else if Json.hasMember "field" members || Json.hasMember "op" members then
      readLeaf members path
    else .error (.malformed path .neitherGroupNorLeaf)
  | _ => .error (.malformed path .expectedObject)
termination_by sizeOf value
decreasing_by
  have := Json.sizeOf_member? _h
  simp only [Json.array.sizeOf_spec, Json.object.sizeOf_spec] at this ⊢
  omega

/-- The trees of a list of nodes, counted from `index`. -/
def readAll (items : List Json) (path : String) (index : Nat) :
    Except DocumentError (List Criteria) :=
  match items with
  | [] => .ok []
  | item :: rest => do
    let node ← read item (path ++ "[" ++ toString index ++ "]")
    let nodes ← readAll rest path (index + 1)
    return node :: nodes
termination_by sizeOf items

end

/-- A leaf from its parts, checked against the operator's arity. -/
def leaf? (field : String) (op : Operator) (value : LeafValue) : Except DocumentError Criteria :=
  if Text.isBlank field then .error (.malformed "leaf.field" .blankFieldName)
  else
    let path := "leaf(" ++ field ++ ")"
    match op.arity? with
    | none => .error (.malformed path (.connectorOnLeaf op))
    | some expected =>
      if expected = value.arity then .ok (.leaf field op value)
      else .error (.misfitValue path op expected (.ofArity value.arity))

end Criteria

end CriteriaQuery
