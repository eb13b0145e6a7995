import CriteriaQuery.Number.Shortest

/-!
# Numbers with fixed places

A finite binary number written with a given count of digits after the point, rounded to the
nearest decimal of that many places, to the even one on a tie.
-/

namespace CriteriaQuery

/-- The magnitude in units of the last place, rounded. -/
def Finite64.inPlaces (v : Finite64) (places : Nat) : Nat :=
  roundedQuotient (v.units * tenTo places) (twoTo 1074)

/-- The digits of a fraction, filled up with zeros from the left. -/
def fractionDigits (n places : Nat) : String :=
  let s := toString n
  Text.repeated "0" (places - s.length) ++ s

/-- The number with a count of digits after the point, of which there is at least one. -/
def Finite64.fixedText (v : Finite64) (places : Nat) : String :=
  let n := v.inPlaces places
  (if v.negative then "-" else "") ++ toString (n / tenTo places) ++ "." ++
    fractionDigits (n % tenTo places) places

/-- The text of a number with a count of digits after the point. -/
def Binary64.fixedText (x : Binary64) (places : Nat) : String :=
  match x.toFinite? with
  | some v => v.fixedText places
  | none => x.text

end CriteriaQuery
