/-!
# Operators

The vocabulary of criteria: two connectors that join criteria, and thirteen operators that
compare a field with a value. Every operator has one literal, and literals are matched
exactly.
-/

namespace CriteriaQuery

/-- What joins the children of a group. -/
inductive Connector
  | and
  | or
deriving DecidableEq, Inhabited

/-- An order comparison of a field with one value. -/
inductive Comparison
  | equal
  | notEqual
  | greater
  | greaterOrEqual
  | less
  | lessOrEqual
deriving DecidableEq

/-- Which part of a field's text a pattern pins down. -/
inductive Anchor
  | start
  | finish
  | anywhere
deriving DecidableEq

/-- A word of the vocabulary. -/
inductive Operator
  | connective (connector : Connector)
  | comparison (comparison : Comparison)
  | nullTest (negated : Bool)
  | membership (negated : Bool)
  | pattern (anchor : Anchor)
deriving DecidableEq

/-- How many values an operator takes. -/
inductive Arity
  | none
  | one
  | many
deriving DecidableEq

/-- The wording of an arity. -/
def Arity.text : Arity → String
  | .none => "no value"
  | .one => "a single scalar"
  | .many => "an array of scalars"

/-- The literal of a connector. -/
def Connector.literal : Connector → String
  | .and => "AND"
  | .or => "OR"

/-- The literal of a comparison. -/
def Comparison.literal : Comparison → String
  | .equal => "="
  | .notEqual => "<>"
  | .greater => ">"
  | .greaterOrEqual => ">="
  | .less => "<"
  | .lessOrEqual => "<="

/-- Whether an order satisfies a comparison. -/
def Comparison.accepts : Comparison → Ordering → Bool
  | .equal, o => o == .eq
  | .notEqual, o => o != .eq
  | .greater, o => o == .gt
  | .greaterOrEqual, o => o != .lt
  | .less, o => o == .lt
  | .lessOrEqual, o => o != .gt

namespace Operator

/-- The whole vocabulary, in its customary order. -/
def all : List Operator :=
  [.connective .and, .connective .or,
   .comparison .equal, .comparison .notEqual, .comparison .greater, .comparison .greaterOrEqual,
   .comparison .less, .comparison .lessOrEqual,
   .nullTest false, .nullTest true, .membership false, .membership true,
   .pattern .start, .pattern .finish, .pattern .anywhere]

/-- The literal of an operator. -/
def literal : Operator → String
  | .connective c => c.literal
  | .comparison c => c.literal
  | .nullTest false => "n"
  | .nullTest true => "nn"
  | .membership false => "i"
  | .membership true => "ni"
  | .pattern .start => "s"
  | .pattern .finish => "e"
  | .pattern .anywhere => "c"

/-- How many values the operator takes on a leaf; none for a connector, which stands on no leaf. -/
def arity? : Operator → Option Arity
  | .connective _ => none
  | .nullTest _ => some .none
  | .membership _ => some .many
  | .comparison _ => some .one
  | .pattern _ => some .one

/-- The connector that an operator is. -/
def connector? : Operator → Option Connector
  | .connective c => some c
  | _ => none

/-- Whether the operator joins criteria. -/
def isConnector (op : Operator) : Bool := op.connector?.isSome

/-- The operator of a literal. -/
def ofLiteral? (token : String) : Option Operator := all.find? fun op => op.literal == token

/-- Every operator belongs to the vocabulary. -/
theorem mem_all (op : Operator) : op ∈ all := by
  rcases op with c | c | n | n | a
  · cases c <;> decide
  · cases c <;> decide
  · cases n <;> decide
  · cases n <;> decide
  · cases a <;> decide

/-- Different operators have different literals. -/
theorem literal_injective {a b : Operator} (h : a.literal = b.literal) : a = b := by
  have key : ∀ x ∈ all, ∀ y ∈ all, x.literal = y.literal → x = y := by decide
  exact key a (mem_all a) b (mem_all b) h

/-- A token is an operator's exactly when it is the operator's literal. -/
theorem ofLiteral?_eq_some_iff {token : String} {op : Operator} :
    ofLiteral? token = some op ↔ op.literal = token := by
  constructor
  · intro h
    simpa using List.find?_some h
  · intro h
    subst h
    cases hf : ofLiteral? op.literal with
    | none =>
      have := List.find?_eq_none.mp hf op (mem_all op)
      simp at this
    | some op' => exact congrArg some (literal_injective (by simpa using List.find?_some hf))

@[simp] theorem ofLiteral?_literal (op : Operator) : ofLiteral? op.literal = some op :=
  ofLiteral?_eq_some_iff.mpr rfl

end Operator

end CriteriaQuery
