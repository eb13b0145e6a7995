import CriteriaQuery.Number.Numeral

/-!
# JSON values

The values a query document is made of. The members of an object are a list of pairs, of
which the first with a key is the member of that key; the reader writes each key once.
-/

namespace CriteriaQuery

/-- A JSON value. -/
inductive Json
  | null
  | bool (value : Bool)
  | number (value : Number)
  | string (value : String)
  | array (items : List Json)
  | object (members : List (String × Json))
deriving Inhabited

namespace Json

/-- The member of a key. -/
def member? (key : String) : List (String × Json) → Option Json
  | [] => none
  | (k, v) :: rest => if k = key then some v else member? key rest

/-- Whether there is a member of a key. -/
def hasMember (key : String) (members : List (String × Json)) : Bool :=
  (member? key members).isSome

/-- Sets the member of a key, in its place if there is one and at the end if not. -/
def setMember (key : String) (value : Json) : List (String × Json) → List (String × Json)
  | [] => [(key, value)]
  | (k, v) :: rest => if k = key then (k, value) :: rest else (k, v) :: setMember key value rest

/-- A member is smaller than its object. -/
theorem sizeOf_member? {key : String} {members : List (String × Json)} {v : Json}
    (h : member? key members = some v) : sizeOf v < sizeOf members := by
  induction members with
  | nil => simp [member?] at h
  | cons a rest ih =>
    obtain ⟨k, w⟩ := a
    simp only [member?] at h
    split at h
    · cases h
      simp only [List.cons.sizeOf_spec, Prod.mk.sizeOf_spec]
      omega
    · have := ih h
      simp only [List.cons.sizeOf_spec]
      omega

/-- The text of a string value. -/
def string? : Json → Option String
  | .string s => some s
  | _ => none

/-- An integer as a value. -/
def ofInt64 (n : Int64) : Json := .number (.integer (WideInt.ofInt64 n))

/-- A count as a value. -/
def ofUInt64 (n : UInt64) : Json := .number (.integer (WideInt.ofUInt64 n))

/-- The count that a value is: a whole number written without point or exponent, not negative. -/
def count? : Json → Option UInt64
  | .number (.integer n) => if 0 ≤ n.val then some (UInt64.ofNat n.val.toNat) else none
  | _ => none

end Json

end CriteriaQuery
