import CriteriaQuery.Json.Basic
import CriteriaQuery.Readable

/-!
# Reading JSON values

How JSON values are read as texts, counts, lists and records. A record is an object, or an
array of its members in the order of the keys, of which the last ones may be missing. A name
out of a choice is a string, or the only key of an object whose member is null.
-/

namespace CriteriaQuery.Json

/-- The truth value that a value is. -/
def truth? : Json → Option Bool
  | .bool b => some b
  | _ => none

/-- The name out of a choice that a value is. -/
def choice? : Json → Option String
  | .string s => some s
  | .object [(key, .null)] => some key
  | _ => none

/-- The items of an array. -/
def elements? : Json → Option (List Json)
  | .array items => some items
  | _ => none

/-- The members of an object. -/
def entries? : Json → Option (List (String × Json))
  | .object members => some members
  | _ => none

/-- The members of a record. -/
def record? (keys : List String) : Json → Option (List (String × Json))
  | .object members => some members
  | .array items => if items.length ≤ keys.length then some (keys.zip items) else none
  | _ => none

instance : Readable Json where
  text? v := liftM (string? v)
  truth? v := liftM (truth? v)
  count? v := liftM (count? v)
  choice? v := liftM (choice? v)
  items? v := liftM (elements? v)
  entries? v := liftM (entries? v)
  record? keys v := liftM (record? keys v)

/-- What a value is read as; JSON values have no references. -/
def readAs? {α : Type} (read : Json → Reading α) (v : Json) : Option α := (read v).value? 0

end CriteriaQuery.Json
