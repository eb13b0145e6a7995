import CriteriaQuery.Proofs.Number.Rounding

/-!
# Rounding keeps the order of integers

The rank of a rounded natural number grows with the number: within one spacing because the
quotient does, and from one spacing to the next because each of them ends where the next one
begins. It may stay the same for two numbers. Up to `2 ^ 53` it does not, since every natural
number up to there is a magnitude itself.
-/

namespace CriteriaQuery

/-! ### Rounded quotients -/

theorem le_roundedQuotient (numerator denominator : Nat) :
    numerator / denominator ≤ roundedQuotient numerator denominator := by
  unfold roundedQuotient
  dsimp only
  split <;> omega

theorem roundedQuotient_mono {m n : Nat} (denominator : Nat) (h : m ≤ n) :
    roundedQuotient m denominator ≤ roundedQuotient n denominator := by
  rcases Nat.lt_or_eq_of_le (Nat.div_le_div_right (c := denominator) h) with hlt | heq
  · calc roundedQuotient m denominator ≤ m / denominator + 1 := roundedQuotient_le m denominator
      _ ≤ n / denominator := hlt
      _ ≤ roundedQuotient n denominator := le_roundedQuotient n denominator
  · -- With one quotient the greater number leaves the greater remainder.
    have hm := Nat.div_add_mod m denominator
    have hn := Nat.div_add_mod n denominator
    unfold roundedQuotient
    dsimp only
    rw [heq] at hm ⊢
    split <;> split <;> omega

theorem roundedQuotient_of_dvd {numerator denominator : Nat} (hpos : 0 < denominator)
    (h : denominator ∣ numerator) :
    roundedQuotient numerator denominator = numerator / denominator := by
  have hrest := Nat.mod_eq_zero_of_dvd h
  unfold roundedQuotient
  dsimp only
  rw [if_neg (by omega)]

/-! ### Ranks of natural numbers -/

/-- A natural number in units of `2 ^ (-1074)`. -/
def unitsOf (n : Nat) : Nat := n * twoTo 1074

theorem unitsOf_mono {m n : Nat} (h : m ≤ n) : unitsOf m ≤ unitsOf n :=
  Nat.mul_le_mul_right (twoTo 1074) h

theorem unitsOf_lt {m n : Nat} (h : m < n) : unitsOf m < unitsOf n :=
  Nat.mul_lt_mul_of_pos_right h (twoTo_pos 1074)

theorem twoTo_dvd {m n : Nat} (h : m ≤ n) : twoTo m ∣ twoTo n := Nat.pow_dvd_pow 2 h

theorem unitsOf_twoTo (e : Nat) : unitsOf (twoTo e) = twoTo (e + 1074) := (twoTo_add e 1074).symm

/-- How often the spacing of ranks has doubled at a natural number. -/
def doublingsAt (n : Nat) : Nat := Nat.log2 (unitsOf n) - 52

theorem rankOfQuotient_one (n : Nat) :
    rankOfQuotient n 1 =
      doublingsAt n * twoTo 52 + roundedQuotient (unitsOf n) (twoTo (doublingsAt n)) := by
  simp only [rankOfQuotient, doublingsAt, unitsOf, Nat.div_one, Nat.one_mul]

theorem log2_mono {m n : Nat} (h : m ≤ n) : Nat.log2 m ≤ Nat.log2 n := by
  rcases Nat.eq_zero_or_pos m with rfl | hm
  · exact Nat.zero_le _
  · have hn : n ≠ 0 := Nat.ne_of_gt (Nat.lt_of_lt_of_le hm h)
    exact (Nat.le_log2 hn).mpr (Nat.le_trans (Nat.log2_self_le (Nat.ne_of_gt hm)) h)

theorem log2_twoTo (e : Nat) : Nat.log2 (twoTo e) = e := Nat.log2_two_pow

theorem doublingsAt_mono {m n : Nat} (h : m ≤ n) : doublingsAt m ≤ doublingsAt n :=
  Nat.sub_le_sub_right (log2_mono (unitsOf_mono h)) 52

/-- A number has 53 binary digits at most in its spacing. -/
theorem unitsOf_div_lt (n : Nat) : unitsOf n / twoTo (doublingsAt n) < twoTo 52 * 2 :=
  div_twoTo_lt (unitsOf n)

/-- A number has all of the 53 binary digits in its spacing, when that is not the first one. -/
theorem le_unitsOf_div {n : Nat} (h : 0 < doublingsAt n) :
    twoTo 52 ≤ unitsOf n / twoTo (doublingsAt n) := by
  have hunits : unitsOf n ≠ 0 := by
    intro hzero
    rw [doublingsAt, hzero, Nat.log2_zero] at h
    exact Nat.not_lt_zero _ h
  have hlog : 52 + doublingsAt n = Nat.log2 (unitsOf n) := by
    rw [doublingsAt] at h ⊢
    omega
  rw [Nat.le_div_iff_mul_le (twoTo_pos _), ← twoTo_add, hlog]
  exact Nat.log2_self_le hunits

/-- Where the spacing doubles, the ranks of the next one begin. -/
theorem le_rankOfQuotient {n : Nat} (h : 0 < doublingsAt n) :
    (doublingsAt n + 1) * twoTo 52 ≤ rankOfQuotient n 1 := by
  have hlead := le_unitsOf_div h
  have hround := le_roundedQuotient (unitsOf n) (twoTo (doublingsAt n))
  rw [rankOfQuotient_one, Nat.add_mul]
  omega

theorem rankOfQuotient_le_next (n : Nat) :
    rankOfQuotient n 1 ≤ (doublingsAt n + 2) * twoTo 52 := by
  have hlead := unitsOf_div_lt n
  have hround := roundedQuotient_le (unitsOf n) (twoTo (doublingsAt n))
  rw [rankOfQuotient_one, Nat.add_mul]
  omega

theorem rankOfQuotient_mono {m n : Nat} (h : m ≤ n) :
    rankOfQuotient m 1 ≤ rankOfQuotient n 1 := by
  rcases Nat.lt_or_eq_of_le (doublingsAt_mono h) with hlt | heq
  · calc rankOfQuotient m 1 ≤ (doublingsAt m + 2) * twoTo 52 := rankOfQuotient_le_next m
      _ ≤ (doublingsAt n + 1) * twoTo 52 := Nat.mul_le_mul_right _ (by omega)
      _ ≤ rankOfQuotient n 1 := le_rankOfQuotient (by omega)
  · rw [rankOfQuotient_one, rankOfQuotient_one, heq]
    exact Nat.add_le_add_left (roundedQuotient_mono _ (unitsOf_mono h)) _

/-! ### Numbers that are magnitudes themselves -/

/-- A natural number that is a whole number of spacings; rounding does not change it. -/
def Unrounded (n : Nat) : Prop := twoTo (doublingsAt n) ∣ unitsOf n

theorem Unrounded.rank {n : Nat} (h : Unrounded n) :
    rankOfQuotient n 1 = doublingsAt n * twoTo 52 + unitsOf n / twoTo (doublingsAt n) := by
  rw [rankOfQuotient_one, roundedQuotient_of_dvd (twoTo_pos _) h]

theorem unrounded_of_le {n : Nat} (h : n ≤ twoTo 53) : Unrounded n := by
  rcases Nat.lt_or_eq_of_le h with hlt | rfl
  · have hunits : unitsOf n < twoTo (53 + 1074) := by
      rw [← unitsOf_twoTo]
      exact unitsOf_lt hlt
    have hlog := log2_lt_of_lt_twoTo hunits (Nat.succ_pos _)
    have hdoublings : doublingsAt n ≤ 1074 := by
      rw [doublingsAt]
      omega
    exact Nat.dvd_mul_left_of_dvd (twoTo_dvd hdoublings) n
  · have hdoublings : doublingsAt (twoTo 53) ≤ 53 + 1074 := by
      rw [doublingsAt, unitsOf_twoTo, log2_twoTo]
      omega
    rw [Unrounded, unitsOf_twoTo]
    exact twoTo_dvd hdoublings

theorem rankOfQuotient_lt {m n : Nat} (hm : Unrounded m) (hn : Unrounded n) (h : m < n) :
    rankOfQuotient m 1 < rankOfQuotient n 1 := by
  rcases Nat.lt_or_eq_of_le (doublingsAt_mono (Nat.le_of_lt h)) with hlt | heq
  · have hlead := unitsOf_div_lt m
    calc rankOfQuotient m 1 < (doublingsAt m + 2) * twoTo 52 := by
          rw [hm.rank, Nat.add_mul]
          omega
      _ ≤ (doublingsAt n + 1) * twoTo 52 := Nat.mul_le_mul_right _ (by omega)
      _ ≤ rankOfQuotient n 1 := le_rankOfQuotient (by omega)
  · rw [hm.rank, hn.rank, ← heq]
    rw [Unrounded, ← heq] at hn
    exact Nat.add_lt_add_left (Nat.div_lt_div_of_lt_of_dvd hn (unitsOf_lt h)) _

/-! ### Integers on the line of ranks -/

/-- Where an integer stands on the line of ranks after rounding. -/
def roundedPlace (n : Int) : Int :=
  if n < 0 then -(rankOfQuotient n.natAbs 1 : Int) else rankOfQuotient n.natAbs 1

theorem Binary64.place?_ofQuotient {negative : Bool} {numerator denominator : Nat}
    (h : rankOfQuotient numerator denominator < rankCount) :
    (ofQuotient negative numerator denominator).place? =
      some (if negative then -(rankOfQuotient numerator denominator : Int)
        else rankOfQuotient numerator denominator) := by
  unfold ofQuotient
  dsimp only
  rw [dif_pos h]
  rfl

theorem Binary64.place?_ofInt (n : WideInt) : (ofInt n.val).place? = some (roundedPlace n.val) := by
  rw [ofInt, place?_ofQuotient n.rank_lt, roundedPlace]
  simp only [decide_eq_true_eq]

theorem roundedPlace_mono {m n : Int} (h : m ≤ n) : roundedPlace m ≤ roundedPlace n := by
  unfold roundedPlace
  split
  next hm =>
    split
    next hn =>
      have := rankOfQuotient_mono (show n.natAbs ≤ m.natAbs by omega)
      omega
    next hn => omega
  next hm =>
    rw [if_neg (by omega)]
    exact Int.ofNat_le.mpr (rankOfQuotient_mono (by omega))

/-- Up to `2 ^ 53` different integers stand at different places. -/
theorem roundedPlace_lt {m n : Int} (hm : m.natAbs ≤ twoTo 53) (hn : n.natAbs ≤ twoTo 53)
    (h : m < n) : roundedPlace m < roundedPlace n := by
  have grows {a b : Nat} (hb : b ≤ twoTo 53) (hab : a < b) :
      rankOfQuotient a 1 < rankOfQuotient b 1 :=
    rankOfQuotient_lt (unrounded_of_le (Nat.le_trans (Nat.le_of_lt hab) hb)) (unrounded_of_le hb)
      hab
  unfold roundedPlace
  split
  next hneg =>
    split
    next hneg' =>
      have := grows hm (show n.natAbs < m.natAbs by omega)
      omega
    next hpos =>
      have := grows hm (show 0 < m.natAbs by omega)
      omega
  next hpos =>
    rw [if_neg (by omega)]
    exact Int.ofNat_lt.mpr (grows hn (by omega))

end CriteriaQuery
