import CriteriaQuery.Number.Binary64

/-!
# Decimal numerals

A numeral is a sign, the digits before the point, perhaps digits after it, and perhaps an
exponent of ten. A numeral without point and exponent denotes an integer when that fits 64
bits, signed or unsigned; minus zero and all other numerals denote a binary number. Its
value is found by one scaling: the leading digits that fit 64 unsigned bits are taken as
one integer, rounded, and multiplied or divided by a rounded power of ten. A numeral
beyond the finite range denotes nothing.
-/

namespace CriteriaQuery

/-- An integer of 64 bits, signed or unsigned. -/
structure WideInt where
  val : Int
  lower : -9223372036854775808 ≤ val
  upper : val < 18446744073709551616
deriving DecidableEq

namespace WideInt

/-- The integer itself when it fits. -/
def ofInt? (n : Int) : Option WideInt :=
  if h : -9223372036854775808 ≤ n ∧ n < 18446744073709551616 then some ⟨n, h.1, h.2⟩ else none

/-- Every signed word fits. -/
def ofInt64 (n : Int64) : WideInt :=
  ⟨n.toInt, Int.le_trans (by decide) (Int64.le_toInt n), Int.lt_of_lt_of_le (Int64.toInt_lt n) (by decide)⟩

/-- Every unsigned word fits. -/
def ofUInt64 (n : UInt64) : WideInt :=
  ⟨n.toNat, Int.le_trans (by decide) (Int.natCast_nonneg _), by
    have := n.toNat_lt
    omega⟩

end WideInt

/-- What a numeral denotes. -/
inductive Number
  | integer (value : WideInt)
  | real (value : Finite64)
deriving DecidableEq

/-- A numeral as read: digits as numbers below ten. -/
structure Numeral where
  negative : Bool
  whole : List Nat
  fraction : Option (List Nat)
  exponent : Option Int

/-- The greatest unsigned word. -/
def maxWord : Nat := UInt64.size - 1

/-- Appends digits to a word as long as it stays one, and gives back the digits not taken. -/
def absorb (word : Nat) : List Nat → Nat × List Nat
  | [] => (word, [])
  | d :: ds => if word * 10 + d ≤ maxWord then absorb (word * 10 + d) ds else (word, d :: ds)

/-- The power of ten, rounded; infinite from the 309th on. -/
def powerOfTen (n : Nat) : Binary64 := Binary64.ofNat (tenTo n)

/-- Divides by the 308th power of ten until the exponent that remains is a table power's. -/
def scaleDown : Nat → Binary64 → Nat → Binary64
  | 0, x, _ => x
  | fuel + 1, x, e =>
    match x.toFinite? with
    | none => x
    | some v =>
      if v.isZero then x
      else if e ≤ 308 then
        match (powerOfTen e).toFinite? with
        | some p => Binary64.div v p
        | none => x
      else
        match (powerOfTen 308).toFinite? with
        | some p => scaleDown fuel (Binary64.div v p) (e - 308)
        | none => x

/-- A word times a power of ten, in one rounded scaling; none beyond the finite range. -/
def scaledWord (word : Nat) (exponent : Int) : Option Finite64 :=
  if word = 0 then some (Finite64.zero false)
  else if 0 ≤ exponent then
    if exponent > 308 then none
    else
      match (Binary64.ofNat word).toFinite?, (powerOfTen exponent.toNat).toFinite? with
      | some v, some p => (Binary64.mul v p).toFinite?
      | _, _ => none
  else (scaleDown 4 (Binary64.ofNat word) (-exponent).toNat).toFinite?

namespace Numeral

/-- The signed binary number of a word and an exponent. -/
def real? (negative : Bool) (word : Nat) (exponent : Int) : Option Number :=
  (scaledWord word exponent).map fun v => .real (if negative then v.negate else v)

/-- What the numeral denotes; none beyond the finite range. -/
def number? (n : Numeral) : Option Number :=
  let (word, rest) := absorb 0 n.whole
  match n.fraction, n.exponent with
  | none, none =>
    if rest.isEmpty then
      if n.negative then
        if word = 0 then some (.real (Finite64.zero true))
        else ((WideInt.ofInt? (-word)).map Number.integer).or (real? true word 0)
      else (WideInt.ofInt? word).map .integer
    else real? n.negative word rest.length
  | fraction, exponent =>
    let (word', rest') := absorb word (fraction.getD [])
    let taken := (fraction.getD []).length - rest'.length
    real? n.negative word' (rest.length - taken + exponent.getD 0)

end Numeral

end CriteriaQuery
