/-!
# Values that can be read

Catalogs and settings are read from values of several data formats. A format says what its
values can be read as: a text, a truth value, a count, a name out of a fixed choice, a list,
a map with texts for keys, a record with known keys. Everything else is read through these.

In some formats a value can stand in many places by reference. A reading follows a limited
number of references, so that a short text cannot ask for a long reading.
-/

namespace CriteriaQuery

/-- A reading, which may fail; its state is the number of references that may still be
followed. -/
abbrev Reading := StateT Nat Option

namespace Reading

/-- Follows a reference, if one may still be followed. -/
def follow : Reading Unit
  | 0 => none
  | left + 1 => some ((), left)

/-- What a reading gives that may follow so many references. -/
def value? {α : Type} (references : Nat) (reading : Reading α) : Option α :=
  (reading.run references).map Prod.fst

end Reading

/-- What a value of a data format can be read as. -/
class Readable (ν : Type) where
  text? : ν → Reading String
  truth? : ν → Reading Bool
  count? : ν → Reading UInt64
  /-- A name out of a fixed choice. -/
  choice? : ν → Reading String
  items? : ν → Reading (List ν)
  /-- The entries of a map; a later entry for a key counts. -/
  entries? : ν → Reading (List (String × ν))
  /-- The members of a record with these keys; other members may be among them. -/
  record? : List String → ν → Reading (List (String × ν))

namespace Readable

variable {ν α : Type} [Readable ν]

/-- A list of values, all read the same way. -/
def listOf? (read : ν → Reading α) (v : ν) : Reading (List α) := do
  (← items? v).mapM read

/-- A member that must be there. -/
def required (key : String) (read : ν → Reading α) (members : List (String × ν)) : Reading α :=
  match members.lookup key with
  | some v => read v
  | none => failure

/-- A member that has a default. -/
def optional (key : String) (default : α) (read : ν → Reading α) (members : List (String × ν)) :
    Reading α :=
  match members.lookup key with
  | some v => read v
  | none => pure default

/-- A text of each entry of a map. -/
def textEntries? (v : ν) : Reading (List (String × String)) := do
  (← entries? v).mapM fun e => (e.1, ·) <$> text? e.2

end Readable

end CriteriaQuery
