import CriteriaQuery.Operator
import CriteriaQuery.Scalar

/-!
# Criteria

A criteria tree: groups join their children by a connector, leaves compare a field with a
value. A tree is written as a JSON value in the grammar that the reader accepts.
-/

namespace CriteriaQuery

/-- The value of a leaf. -/
inductive LeafValue
  | absent
  | one (value : Scalar)
  | many (values : List Scalar)
deriving DecidableEq

/-- A tree of criteria. -/
inductive Criteria
  | group (connector : Connector) (children : List Criteria)
  | leaf (field : String) (op : Operator) (value : LeafValue)
deriving Inhabited

namespace LeafValue

/-- The arity that a value has the shape of. -/
def arity : LeafValue → Arity
  | .absent => .none
  | .one _ => .one
  | .many _ => .many

/-- The values in order. -/
def toList : LeafValue → List Scalar
  | .absent => []
  | .one v => [v]
  | .many vs => vs

/-- The member that holds the value in a leaf's JSON object. -/
def toMembers : LeafValue → List (String × Json)
  | .absent => []
  | .one v => [("value", v.toJson)]
  | .many vs => [("value", .array (vs.map Scalar.toJson))]

end LeafValue

namespace Criteria

/-- The criteria that every row meets: no conditions, joined by `AND`. -/
def unrestricted : Criteria := .group .and []

mutual

/-- Two trees are compared node by node. -/
def decEq : (a b : Criteria) → Decidable (a = b)
  | .group c as, .group d bs =>
    if h : c = d then
      match decEqAll as bs with
      | isTrue h' => isTrue (by rw [h, h'])
      | isFalse h' => isFalse (by simp [h'])
    else isFalse (by simp [h])
  | .leaf f op v, .leaf g op' w =>
    if h : f = g ∧ op = op' ∧ v = w then isTrue (by simp [h])
    else isFalse (by simpa using h)
  | .group _ _, .leaf _ _ _ => isFalse (by simp)
  | .leaf _ _ _, .group _ _ => isFalse (by simp)

/-- Two lists of trees are compared tree by tree. -/
def decEqAll : (as bs : List Criteria) → Decidable (as = bs)
  | [], [] => isTrue rfl
  | [], _ :: _ => isFalse (by simp)
  | _ :: _, [] => isFalse (by simp)
  | a :: as, b :: bs =>
    match decEq a b, decEqAll as bs with
    | isTrue h, isTrue h' => isTrue (by rw [h, h'])
    | isFalse h, _ => isFalse (by simp [h])
    | _, isFalse h => isFalse (by simp [h])

end

instance : DecidableEq Criteria := decEq

mutual

/-- The fields of the leaves in document order. -/
def fields : Criteria → List String
  | .group _ children => fieldsAll children
  | .leaf field _ _ => [field]

/-- The fields of the leaves of a list of trees. -/
def fieldsAll : List Criteria → List String
  | [] => []
  | c :: cs => c.fields ++ fieldsAll cs

end

/-- The number of leaves. -/
def leafCount (c : Criteria) : Nat := c.fields.length

mutual

/-- The tree as a JSON value. -/
def toJson : Criteria → Json
  | .group connector children =>
    .object [("connector", .string connector.literal), ("children", .array (toJsonAll children))]
  | .leaf field op value =>
    .object ([("field", .string field), ("op", .string op.literal)] ++ value.toMembers)

/-- A list of trees as JSON values. -/
def toJsonAll : List Criteria → List Json
  | [] => []
  | c :: cs => c.toJson :: toJsonAll cs

end

theorem toJsonAll_eq_map (cs : List Criteria) : toJsonAll cs = cs.map toJson := by
  induction cs with
  | nil => rfl
  | cons c cs ih => simp [toJsonAll, ih]

end Criteria

end CriteriaQuery
