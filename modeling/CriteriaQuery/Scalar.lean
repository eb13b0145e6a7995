import CriteriaQuery.Json.Basic
import CriteriaQuery.Number.Shortest

/-!
# Scalars

The literals that criteria compare with and the values that rows hold: truth values, signed
integers of 64 bits, binary numbers of 64 bits, and texts. Scalars of one kind are ordered;
an integer and a binary number are compared after the integer is rounded; scalars of other
kinds are not comparable.
-/

namespace CriteriaQuery

/-- A single value. -/
inductive Scalar
  | bool (value : Bool)
  | int (value : Int64)
  | float (value : Binary64)
  | text (value : String)
deriving DecidableEq

namespace Scalar

/-- The scalar of a number: an integer when it is one that fits a signed word. -/
def ofNumber : Number → Scalar
  | .integer n =>
    if n.val ≤ Int64.maxValue.toInt then .int (Int64.ofInt n.val) else .float (Binary64.ofInt n.val)
  | .real v => .float (.finite v)

/-- The scalar that a JSON value is. -/
def ofJson? : Json → Option Scalar
  | .bool b => some (.bool b)
  | .number n => some (ofNumber n)
  | .string s => some (.text s)
  | _ => none

/-- The scalar as a JSON value; a number that is not finite becomes null. -/
def toJson : Scalar → Json
  | .bool b => .bool b
  | .int n => Json.ofInt64 n
  | .float x =>
    match x.toFinite? with
    | some v => .number (.real v)
    | none => .null
  | .text s => .string s

/-- The text of a text scalar. -/
def text? : Scalar → Option String
  | .text s => some s
  | _ => none

/-- The order of two values by `<`. -/
def orderOf {α : Type} [LT α] [DecidableEq α] [(a b : α) → Decidable (a < b)] (a b : α) : Ordering :=
  if a < b then .lt else if a = b then .eq else .gt

/-- The order of two scalars, when they are comparable. -/
def compare? : Scalar → Scalar → Option Ordering
  | .bool a, .bool b => some (orderOf a.toNat b.toNat)
  | .int a, .int b => some (orderOf a.toInt b.toInt)
  | .int a, .float b => (Binary64.ofInt a.toInt).compare? b
  | .float a, .int b => a.compare? (Binary64.ofInt b.toInt)
  | .float a, .float b => a.compare? b
  | .text a, .text b => some (orderOf a b)
  | _, _ => none

/-- The bare text of a scalar. -/
def bareText : Scalar → String
  | .bool b => if b then "true" else "false"
  | .int n => toString n.toInt
  | .float x => x.text
  | .text s => s

/-- A text between single quotes, with those inside written twice. -/
def quoted (s : String) : String :=
  String.ofList ('\'' :: s.toList.flatMap (fun c => if c = '\'' then ['\'', '\''] else [c]) ++ ['\''])

/-- The display form of a scalar: a text stands between single quotes. -/
def display : Scalar → String
  | .text s => quoted s
  | s => s.bareText

end Scalar

end CriteriaQuery
