import CriteriaQuery.Number.Power

/-!
# Binary floating-point numbers of 64 bits

A finite number is a sign and the *rank* of its magnitude: its place in the ascending list
of all finite magnitudes, counted from zero. Ranks below `2 ^ 53` are the magnitudes in
units of `2 ^ (-1074)`; above that the spacing doubles with every `2 ^ 52` ranks. So the
order of magnitudes is the order of ranks, and every magnitude is a whole number of units.

Rounding takes an exact quotient of natural numbers to the nearest rank, the even one on a
tie. Conversion from integers, multiplication and division are rounded exact quotients.

## Implementation notes

All of the arithmetic is on `Nat` and `Int`; core's `Float` is not used.
-/

namespace CriteriaQuery

/-- The number of finite magnitudes, and so the rank that stands for infinity. -/
def rankCount : Nat := 2047 * twoTo 52

/-- A finite 64-bit binary number: its sign and the rank of its magnitude. -/
structure Finite64 where
  negative : Bool
  rank : Nat
  rank_lt : rank < rankCount
deriving DecidableEq

/-- A 64-bit binary number. -/
inductive Binary64
  | nan
  | infinite (negative : Bool)
  | finite (value : Finite64)
deriving DecidableEq

namespace Finite64

/-- Zero with either sign. -/
def zero (negative : Bool) : Finite64 := ⟨negative, 0, by decide⟩

instance : Inhabited Finite64 := ⟨zero false⟩

/-- Whether the magnitude is zero. -/
def isZero (v : Finite64) : Bool := v.rank == 0

/-- How often the spacing of ranks has doubled at this magnitude. -/
def doublings (v : Finite64) : Nat := v.rank / twoTo 52 - 1

/-- The magnitude counted in the spacing of its neighbourhood. -/
def significand (v : Finite64) : Nat := v.rank - v.doublings * twoTo 52

/-- The magnitude as a whole number of units of `2 ^ (-1074)`. -/
def units (v : Finite64) : Nat := v.significand * twoTo v.doublings

/-- The other sign. -/
def negate (v : Finite64) : Finite64 := { v with negative := !v.negative }

/-- Where the number stands on the line of ranks; the two zeros stand at one place. -/
def place (v : Finite64) : Int := if v.negative then -(v.rank : Int) else v.rank

end Finite64

/-- The quotient rounded to the nearest whole number, to the even one on a tie. -/
def roundedQuotient (numerator denominator : Nat) : Nat :=
  let q := numerator / denominator
  let r := numerator % denominator
  if 2 * r > denominator ∨ (2 * r = denominator ∧ q % 2 = 1) then q + 1 else q

/-- The rank nearest to a quotient; `rankCount` or more when the quotient is beyond all ranks. -/
def rankOfQuotient (numerator denominator : Nat) : Nat :=
  let scaled := numerator * twoTo 1074
  let doublings := Nat.log2 (scaled / denominator) - 52
  doublings * twoTo 52 + roundedQuotient scaled (denominator * twoTo doublings)

namespace Binary64

/-- The number nearest to a quotient with a sign; infinite beyond the finite range. -/
def ofQuotient (negative : Bool) (numerator denominator : Nat) : Binary64 :=
  let rank := rankOfQuotient numerator denominator
  if h : rank < rankCount then .finite ⟨negative, rank, h⟩ else .infinite negative

/-- The number nearest to an integer. -/
def ofInt (n : Int) : Binary64 := ofQuotient (decide (n < 0)) n.natAbs 1

/-- The number nearest to a natural number. -/
def ofNat (n : Nat) : Binary64 := ofQuotient false n 1

/-- The product of two finite numbers, rounded. -/
def mul (a b : Finite64) : Binary64 :=
  ofQuotient (a.negative != b.negative) (a.units * b.units) (twoTo 2148)

/-- The quotient of two finite numbers of which the second is not zero, rounded. -/
def div (a b : Finite64) : Binary64 :=
  ofQuotient (a.negative != b.negative) a.units b.units

/-- The value of a finite number; none for the infinities and for the undefined value. -/
def toFinite? : Binary64 → Option Finite64
  | .finite v => some v
  | _ => none

/-- Whether the number is finite. -/
def isFinite (x : Binary64) : Bool := x.toFinite?.isSome

/-- Where the number stands on the line of ranks, with the infinities at its two ends. -/
def place? : Binary64 → Option Int
  | .nan => none
  | .infinite negative => some (if negative then -(rankCount : Int) else rankCount)
  | .finite v => some v.place

/-- The order of two numbers; none when either is undefined. -/
def compare? (a b : Binary64) : Option Ordering := do
  let x ← a.place?
  let y ← b.place?
  return compare x y

/-- Nothing is comparable with the undefined value. -/
@[simp] theorem compare?_nan_left (b : Binary64) : compare? .nan b = none := rfl

@[simp] theorem compare?_nan_right (a : Binary64) : compare? a .nan = none := by
  cases a <;> rfl

end Binary64

end CriteriaQuery
