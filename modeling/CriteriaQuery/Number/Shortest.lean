import CriteriaQuery.Number.Binary64
import CriteriaQuery.Text.Joined

/-!
# The shortest decimal that reads back

A finite binary number is written with the fewest significant digits whose nearest binary
number is the one written; among the decimals of that length the nearest is taken, the
larger one on an exact tie. The notation is always positional: no exponent, no point
after a whole number.

## Implementation notes

For each count of digits the value's two neighbours on the decimal grid of that count are
tested against the interval of values that round to the number. The interval's ends belong
to it when the number's rank is even. All quantities are exact.
-/

namespace CriteriaQuery

/-- The decimal number `digits * 10 ^ exponent`. -/
structure Decimal where
  digits : Nat
  exponent : Int
deriving DecidableEq

namespace Decimal

/-- Drops up to `fuel` trailing zeros of the digits. -/
def trim : Nat → Decimal → Decimal
  | 0, d => d
  | fuel + 1, d =>
    if d.digits % 10 = 0 ∧ d.digits ≠ 0 then trim fuel ⟨d.digits / 10, d.exponent + 1⟩ else d

/-- The digits in positional notation. -/
def text (d : Decimal) : String :=
  let s := toString d.digits
  if 0 ≤ d.exponent then
    if d.digits = 0 then "0" else s ++ Text.repeated "0" d.exponent.toNat
  else
    let places := (-d.exponent).toNat
    let cs := s.toList
    if places < cs.length then
      String.ofList (cs.take (cs.length - places)) ++ "." ++
        String.ofList (cs.drop (cs.length - places))
    else "0." ++ Text.repeated "0" (places - cs.length) ++ s

end Decimal

namespace Finite64

/-- The units at a rank. -/
def unitsAt (rank : Nat) : Nat := (rank - (rank / twoTo 52 - 1) * twoTo 52) * twoTo (rank / twoTo 52 - 1)

/-- Twice the lower end, in units, of the values that round to the magnitude. -/
def lowerEnd (v : Finite64) : Nat := unitsAt (v.rank - 1) + v.units

/-- Twice the upper end, in units, of the values that round to the magnitude. -/
def upperEnd (v : Finite64) : Nat := v.units + unitsAt (v.rank + 1)

/-- Whether a decimal rounds to the magnitude. -/
def reads (v : Finite64) (d : Decimal) : Bool :=
  let point := d.digits * tenTo d.exponent.toNat * twoTo 1075
  let scale := tenTo (-d.exponent).toNat
  if v.rank % 2 = 0 then
    decide (v.lowerEnd * scale ≤ point ∧ point ≤ v.upperEnd * scale)
  else decide (v.lowerEnd * scale < point ∧ point < v.upperEnd * scale)

/-- The decimal exponent of the magnitude's first digit. -/
def leadingExponent (v : Finite64) : Int :=
  ((toString (v.units * tenTo 400 / twoTo 1074)).length : Int) - 401

/-- The nearest decimal of `count` digits that rounds to the magnitude. -/
def withDigits? (v : Finite64) (count : Nat) : Option Decimal :=
  let exponent := v.leadingExponent + 1 - count
  let numerator := v.units * tenTo (-exponent).toNat
  let denominator := twoTo 1074 * tenTo exponent.toNat
  let below : Decimal := ⟨numerator / denominator, exponent⟩
  let above : Decimal := ⟨numerator / denominator + 1, exponent⟩
  match v.reads below, v.reads above with
  | true, true => some (if 2 * (numerator % denominator) < denominator then below else above)
  | true, false => some below
  | false, true => some above
  | false, false => none

/-- The first count of digits, at most `fuel` counts after `count`, that has a decimal. -/
def searchDigits (v : Finite64) (count : Nat) : Nat → Option Decimal
  | 0 => none
  | fuel + 1 => (v.withDigits? count).or (searchDigits v (count + 1) fuel)

/-- The shortest decimal that rounds to the magnitude. -/
def shortest (v : Finite64) : Decimal :=
  if v.isZero then ⟨0, 0⟩ else ((v.searchDigits 1 17).getD ⟨0, 0⟩).trim 20

/-- The number in positional notation with the fewest digits; zero keeps its sign. -/
def text (v : Finite64) : String := (if v.negative then "-" else "") ++ v.shortest.text

end Finite64

/-- The text of a binary number. -/
def Binary64.text : Binary64 → String
  | .nan => "NaN"
  | .infinite negative => if negative then "-inf" else "inf"
  | .finite v => v.text

end CriteriaQuery
