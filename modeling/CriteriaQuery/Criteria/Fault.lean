import CriteriaQuery.Operator

/-!
# Faults of query documents

What can be wrong with a query document, where, and how it is worded. Every fault but an
unknown operator token names the place in the document.
-/

namespace CriteriaQuery

/-- What is wrong at a place of a document. -/
inductive Fault
  | expectedObject
  | expectedArray
  | expectedString
  | expectedScalar
  | expectedCount
  | expectedFieldName
  | unknownDirection (token : String)
  | neitherGroupNorLeaf
  | notConnector (op : Operator)
  | connectorOnLeaf (op : Operator)
  | blankFieldName
  | missingKey
  | unreadableText
deriving DecidableEq

/-- The shape of a value that does not fit its operator. -/
inductive FoundValue
  | nothing
  | scalar
  | scalars
  | list (size : Nat)
  | object
deriving DecidableEq

/-- Why a query document is refused. -/
inductive DocumentError
  | unknownOperator (token : String)
  | malformed (path : String) (fault : Fault)
  | misfitValue (path : String) (op : Operator) (expected : Arity) (found : FoundValue)
deriving DecidableEq

/-- The wording of a fault. -/
def Fault.text : Fault → String
  | .expectedObject => "expected an object"
  | .expectedArray => "expected an array"
  | .expectedString => "expected a string"
  | .expectedScalar => "expected a scalar"
  | .expectedCount => "expected a non-negative integer"
  | .expectedFieldName => "expected a field name"
  | .unknownDirection token => "expected ASC or DESC, found `" ++ token ++ "`"
  | .neitherGroupNorLeaf => "expected either a `connector` group or a `field`/`op` leaf"
  | .notConnector op => "`" ++ op.literal ++ "` is not a connector"
  | .connectorOnLeaf op => "connector `" ++ op.literal ++ "` used as a leaf operator"
  | .blankFieldName => "field name is empty"
  | .missingKey => "missing required key"
  | .unreadableText => "invalid JSON: the text is not one JSON value"

/-- The wording of a value's shape. -/
def FoundValue.text : FoundValue → String
  | .nothing => Arity.none.text
  | .scalar => Arity.one.text
  | .scalars => Arity.many.text
  | .list size => "an array of " ++ toString size ++ " item(s)"
  | .object => "an object"

/-- The shape named after an arity. -/
def FoundValue.ofArity : Arity → FoundValue
  | .none => .nothing
  | .one => .scalar
  | .many => .scalars

namespace DocumentError

/-- The wording of an error. -/
def message : DocumentError → String
  | .unknownOperator token => "Unknown operator token `" ++ token ++ "`"
  | .malformed path fault => "Malformed criteria at `" ++ path ++ "`: " ++ fault.text
  | .misfitValue path op expected found =>
    "Invalid value for operator `" ++ op.literal ++ "` at `" ++ path ++ "`: expected " ++
      expected.text ++ ", found " ++ found.text

/-- The place in the document that an error names. -/
def path? : DocumentError → Option String
  | .unknownOperator _ => none
  | .malformed path _ => some path
  | .misfitValue path _ _ _ => some path

end DocumentError

end CriteriaQuery
