import CriteriaQuery.Number.Numeral

/-!
# Rounded integers

An integer of 64 bits is far from the ends of the range of binary numbers, so that rounding it
gives a finite number.
-/

namespace CriteriaQuery

theorem twoTo_add (m n : Nat) : twoTo (m + n) = twoTo m * twoTo n := Nat.pow_add 2 m n

theorem log2_lt_of_lt_twoTo {n e : Nat} (h : n < twoTo e) (hpos : 0 < e) : Nat.log2 n < e := by
  rcases Nat.eq_zero_or_pos n with rfl | hn
  · rwa [Nat.log2_zero]
  · exact (Nat.log2_lt (Nat.ne_of_gt hn)).mpr h

/-- Rounding goes up by one at most. -/
theorem roundedQuotient_le (numerator denominator : Nat) :
    roundedQuotient numerator denominator ≤ numerator / denominator + 1 := by
  unfold roundedQuotient
  dsimp only
  split <;> omega

/-- What scaling down leaves of a number has 53 binary digits at most. -/
theorem div_twoTo_lt (n : Nat) : n / twoTo (Nat.log2 n - 52) < twoTo 53 := by
  rw [Nat.div_lt_iff_lt_mul (twoTo_pos _), ← twoTo_add]
  calc n < twoTo (Nat.log2 n + 1) := Nat.lt_log2_self
    _ ≤ twoTo (53 + (Nat.log2 n - 52)) := Nat.pow_le_pow_right (by decide) (by omega)

/-- The rank of a number that was scaled up grows with the number of its binary digits. -/
theorem rankOfQuotient_le {n e : Nat} (h : n < twoTo e) :
    rankOfQuotient n 1 ≤ (e + 1024) * twoTo 52 := by
  have hscaled : n * twoTo 1074 < twoTo (e + 1074) := by
    rw [twoTo_add]
    exact Nat.mul_lt_mul_of_pos_right h (twoTo_pos 1074)
  have hlog := log2_lt_of_lt_twoTo hscaled (Nat.succ_pos _)
  unfold rankOfQuotient
  dsimp only
  rw [Nat.div_one, Nat.one_mul]
  generalize n * twoTo 1074 = scaled at hlog
  have hround := roundedQuotient_le scaled (twoTo (Nat.log2 scaled - 52))
  have hlead := div_twoTo_lt scaled
  rw [show twoTo 53 = twoTo 52 * 2 from twoTo_succ 52] at hlead
  have hdigits : Nat.log2 scaled - 52 + 2 ≤ e + 1024 := by omega
  have hdoublings := Nat.mul_le_mul_right (twoTo 52) hdigits
  rw [Nat.add_mul] at hdoublings
  omega

/-- An integer of 64 bits has a rank among the finite magnitudes. -/
theorem WideInt.rank_lt (n : WideInt) : rankOfQuotient n.val.natAbs 1 < rankCount := by
  have hlower := n.lower
  have hupper := n.upper
  have hpow : twoTo 64 = 18446744073709551616 := rfl
  have hrank : rankOfQuotient n.val.natAbs 1 ≤ (64 + 1024) * twoTo 52 :=
    rankOfQuotient_le (by omega)
  exact Nat.lt_of_le_of_lt hrank (Nat.mul_lt_mul_of_pos_right (by decide) (twoTo_pos 52))

namespace Binary64

theorem isFinite_ofQuotient {negative : Bool} {numerator denominator : Nat}
    (h : rankOfQuotient numerator denominator < rankCount) :
    (ofQuotient negative numerator denominator).isFinite = true := by
  unfold ofQuotient
  dsimp only
  rw [dif_pos h]
  rfl

/-- Rounding an integer of 64 bits gives a finite number. -/
theorem isFinite_ofInt (n : WideInt) : (ofInt n.val).isFinite = true :=
  isFinite_ofQuotient n.rank_lt

theorem exists_finite_ofInt (n : WideInt) : ∃ x, ofInt n.val = .finite x := by
  have hfinite := isFinite_ofInt n
  cases hround : ofInt n.val with
  | finite x => exact ⟨x, rfl⟩
  | nan | infinite _ =>
      rw [hround] at hfinite
      cases hfinite

end Binary64

end CriteriaQuery
