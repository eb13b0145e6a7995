import Mathlib.Data.List.Basic
import CriteriaQuery.Proofs.Number.Monotone
import CriteriaQuery.Scalar

/-!
# The order of scalars

Two integers are compared exactly, an integer and a binary number after the integer is rounded.
Either way alone is an order. Among some scalars both together are one unless a binary number is
equal to two different integers, which happens beyond `2 ^ 53` only.
-/

namespace CriteriaQuery

namespace Scalar

/-! ### The two ways of comparing -/

/-- Where a number stands on the line of ranks, an integer after rounding. -/
def place? : Scalar → Option Int
  | .int n => some (roundedPlace n.toInt)
  | .float x => x.place?
  | _ => none

/-- The order of two places, when there are two. -/
def orderOfPlaces (p q : Option Int) : Option Ordering := do
  let x ← p
  let y ← q
  return compare x y

theorem place?_int (n : Int64) : (Binary64.ofInt n.toInt).place? = (int n).place? :=
  Binary64.place?_ofInt (WideInt.ofInt64 n)

/-- With a binary number on one side the places are compared. -/
theorem compare?_float_left (x : Binary64) (b : Scalar) :
    (float x).compare? b = orderOfPlaces x.place? b.place? := by
  cases b with
  | int n => rw [← place?_int]; rfl
  | float y => rfl
  | bool _ | text _ => cases x <;> rfl

theorem compare?_float_right (a : Scalar) (y : Binary64) :
    a.compare? (float y) = orderOfPlaces a.place? y.place? := by
  cases a with
  | int n => rw [← place?_int]; rfl
  | float x => rfl
  | bool _ | text _ => rfl

theorem compare?_int (m n : Int64) : (int m).compare? (int n) = some (compare m.toInt n.toInt) :=
  rfl

theorem compare?_bool (p q : Bool) : (bool p).compare? (bool q) = some (compare p.toNat q.toNat) :=
  rfl

theorem compare?_text (s t : String) : (text s).compare? (text t) = some (compare s t) := rfl

theorem orderOfPlaces_eq_some_iff {p q : Option Int} {o : Ordering} :
    orderOfPlaces p q = some o ↔ ∃ x y, p = some x ∧ q = some y ∧ compare x y = o := by
  cases p <;> cases q <;> simp [orderOfPlaces]

/-! ### Both ways round -/

theorem some_compare_swap {α : Type} [Ord α] [Std.OrientedOrd α] (x y : α) :
    some (compare y x) = (some (compare x y)).map Ordering.swap :=
  congrArg some Std.OrientedOrd.eq_swap

theorem orderOfPlaces_swap (p q : Option Int) :
    orderOfPlaces q p = (orderOfPlaces p q).map Ordering.swap := by
  cases p with
  | none => cases q <;> rfl
  | some x =>
      cases q with
      | none => rfl
      | some y => exact some_compare_swap x y

/-- The other way round the order is the reverse. -/
theorem compare?_swap (a b : Scalar) : b.compare? a = (a.compare? b).map Ordering.swap := by
  cases a with
  | float x => rw [compare?_float_left, compare?_float_right, orderOfPlaces_swap]
  | bool p =>
      cases b with
      | bool q => exact some_compare_swap p.toNat q.toNat
      | float y => rw [compare?_float_left, compare?_float_right, orderOfPlaces_swap]
      | int _ | text _ => rfl
  | int m =>
      cases b with
      | int n => exact some_compare_swap m.toInt n.toInt
      | float y => rw [compare?_float_left, compare?_float_right, orderOfPlaces_swap]
      | bool _ | text _ => rfl
  | text s =>
      cases b with
      | text t => exact some_compare_swap s t
      | float y => rw [compare?_float_left, compare?_float_right, orderOfPlaces_swap]
      | bool _ | int _ => rfl

/-! ### Three scalars in a row -/

/-- The first scalar is less than the second one or equal to it. -/
def AtMost (a b : Scalar) : Prop := ∃ o, a.compare? b = some o ∧ o.isLE

/-- The order leads on from the first scalar over the second to the third, and the outer ones are
equal when both steps are. -/
def Chains (a b c : Scalar) : Prop :=
  a.AtMost b → b.AtMost c →
    a.AtMost c ∧
      (a.compare? c = some .eq ↔ a.compare? b = some .eq ∧ b.compare? c = some .eq)

/-- Among some scalars a binary number is equal to two different integers. -/
def Merged (s : List Scalar) : Prop :=
  ∃ m n x, int m ∈ s ∧ int n ∈ s ∧ float x ∈ s ∧ m ≠ n ∧
    (int m).compare? (float x) = some .eq ∧ (int n).compare? (float x) = some .eq

/-- The order leads on over any three of some scalars. -/
def Consistent (s : List Scalar) : Prop := ∀ a ∈ s, ∀ b ∈ s, ∀ c ∈ s, Chains a b c

theorem Merged.mono {s t : List Scalar} (hsub : s ⊆ t) (h : Merged s) : Merged t := by
  obtain ⟨m, n, x, hm, hn, hx, hne, heq⟩ := h
  exact ⟨m, n, x, hsub hm, hsub hn, hsub hx, hne, heq⟩

/-- Three scalars that are compared in one transitive order are in a row. -/
theorem chains_of_compare {α : Type} [Ord α] [Std.TransOrd α] {a b c : Scalar} {x y z : α}
    (hab : a.compare? b = some (compare x y)) (hbc : b.compare? c = some (compare y z))
    (hac : a.compare? c = some (compare x z)) : Chains a b c := by
  rintro ⟨o, ho, hle⟩ ⟨o', ho', hle'⟩
  obtain rfl := Option.some.inj (hab.symm.trans ho)
  obtain rfl := Option.some.inj (hbc.symm.trans ho')
  refine ⟨⟨_, hac, Std.TransCmp.isLE_trans hle hle'⟩, ?_⟩
  rw [hab, hbc, hac, Option.some.injEq, Option.some.injEq, Option.some.injEq]
  constructor
  · intro heq
    rcases Ordering.isLE_iff_eq_lt_or_eq_eq.mp hle with hlt | hxy
    · have := Std.TransCmp.lt_of_lt_of_isLE hlt hle'
      rw [heq] at this
      cases this
    rcases Ordering.isLE_iff_eq_lt_or_eq_eq.mp hle' with hlt | hyz
    · have := Std.TransCmp.lt_of_isLE_of_lt hle hlt
      rw [heq] at this
      cases this
    exact ⟨hxy, hyz⟩
  · rintro ⟨hxy, hyz⟩
    exact Std.TransCmp.eq_trans hxy hyz

theorem chains_of_left {a b c : Scalar} (h : a.compare? b = none) : Chains a b c := by
  rintro ⟨o, ho, -⟩
  rw [h] at ho
  cases ho

theorem chains_of_right {a b c : Scalar} (h : b.compare? c = none) : Chains a b c := by
  rintro - ⟨o, ho, -⟩
  rw [h] at ho
  cases ho

/-- Three scalars that are all compared by their places are in a row. -/
theorem chains_of_places {a b c : Scalar} (hab : a.compare? b = orderOfPlaces a.place? b.place?)
    (hbc : b.compare? c = orderOfPlaces b.place? c.place?)
    (hac : a.compare? c = orderOfPlaces a.place? c.place?) : Chains a b c := by
  rintro ⟨o, ho, hle⟩ ⟨o', ho', hle'⟩
  obtain ⟨x, y, hx, hy, -⟩ := orderOfPlaces_eq_some_iff.mp (hab.symm.trans ho)
  obtain ⟨-, z, -, hz, -⟩ := orderOfPlaces_eq_some_iff.mp (hbc.symm.trans ho')
  rw [hx, hy] at hab
  rw [hy, hz] at hbc
  rw [hx, hz] at hac
  exact chains_of_compare hab hbc hac ⟨o, ho, hle⟩ ⟨o', ho', hle'⟩

/-! ### Two integers and a binary number -/

section

variable {m n : Int64} {x : Binary64}

theorem atMost_int_int : (int m).AtMost (int n) ↔ m.toInt ≤ n.toInt := by
  simp [AtMost, compare?_int, Int.isLE_compare]

theorem atMost_int_float :
    (int m).AtMost (float x) ↔ ∃ p, x.place? = some p ∧ roundedPlace m.toInt ≤ p := by
  simp [AtMost, compare?_float_right, orderOfPlaces_eq_some_iff, place?, Int.isLE_compare]

theorem atMost_float_int :
    (float x).AtMost (int n) ↔ ∃ p, x.place? = some p ∧ p ≤ roundedPlace n.toInt := by
  simp [AtMost, compare?_float_left, orderOfPlaces_eq_some_iff, place?, Int.isLE_compare]

theorem int_eq_int : (int m).compare? (int n) = some .eq ↔ m.toInt = n.toInt := by
  simp [compare?_int]

theorem int_eq_float :
    (int m).compare? (float x) = some .eq ↔ x.place? = some (roundedPlace m.toInt) := by
  simp [compare?_float_right, orderOfPlaces_eq_some_iff, place?]

theorem float_eq_int :
    (float x).compare? (int n) = some .eq ↔ x.place? = some (roundedPlace n.toInt) := by
  simp [compare?_float_left, orderOfPlaces_eq_some_iff, place?]

/-- A binary number that is not merged with others is equal to one integer at most. -/
theorem toInt_eq_of_not_merged {s : List Scalar} (h : ¬ Merged s) (hm : int m ∈ s)
    (hn : int n ∈ s) (hx : float x ∈ s) {p : Int} (hp : x.place? = some p)
    (hpm : p = roundedPlace m.toInt) (hpn : p = roundedPlace n.toInt) : m.toInt = n.toInt := by
  by_contra hne
  exact h ⟨m, n, x, hm, hn, hx, fun heq => hne (congrArg Int64.toInt heq),
    int_eq_float.mpr (hpm ▸ hp), int_eq_float.mpr (hpn ▸ hp)⟩

theorem chains_int_float_int (h : ¬ Merged [int m, float x, int n]) :
    Chains (int m) (float x) (int n) := by
  intro hmx hxn
  obtain ⟨p, hp, hmp⟩ := atMost_int_float.mp hmx
  obtain ⟨q, hq, hpn⟩ := atMost_float_int.mp hxn
  obtain rfl := Option.some.inj (hp.symm.trans hq)
  have happart := toInt_eq_of_not_merged h (m := m) (n := n) (by simp) (by simp) (by simp) hp
  have hrounded : n.toInt ≤ m.toInt → roundedPlace n.toInt ≤ roundedPlace m.toInt :=
    roundedPlace_mono
  have hrounded' : m.toInt ≤ n.toInt → roundedPlace m.toInt ≤ roundedPlace n.toInt :=
    roundedPlace_mono
  rw [atMost_int_int, int_eq_int, int_eq_float, float_eq_int]
  rw [hp, Option.some.injEq, Option.some.injEq]
  refine ⟨by omega, ?_⟩
  constructor
  · intro heq
    exact ⟨by omega, by omega⟩
  · rintro ⟨hpm, hpn⟩
    exact happart hpm hpn

theorem chains_int_int_float (h : ¬ Merged [int m, int n, float x]) :
    Chains (int m) (int n) (float x) := by
  intro hmn hnx
  rw [atMost_int_int] at hmn
  obtain ⟨p, hp, hnp⟩ := atMost_int_float.mp hnx
  have happart := toInt_eq_of_not_merged h (m := m) (n := n) (by simp) (by simp) (by simp) hp
  have hrounded : roundedPlace m.toInt ≤ roundedPlace n.toInt := roundedPlace_mono hmn
  rw [atMost_int_float, int_eq_int, int_eq_float, int_eq_float]
  rw [hp, Option.some.injEq, Option.some.injEq]
  refine ⟨⟨p, rfl, Int.le_trans hrounded hnp⟩, ?_⟩
  constructor
  · intro hpm
    have hpn : p = roundedPlace n.toInt := by omega
    exact ⟨happart hpm hpn, hpn⟩
  · rintro ⟨heq, hpn⟩
    rw [heq, hpn]

theorem chains_float_int_int (h : ¬ Merged [float x, int m, int n]) :
    Chains (float x) (int m) (int n) := by
  intro hxm hmn
  rw [atMost_int_int] at hmn
  obtain ⟨p, hp, hpm⟩ := atMost_float_int.mp hxm
  have happart := toInt_eq_of_not_merged h (m := m) (n := n) (by simp) (by simp) (by simp) hp
  have hrounded : roundedPlace m.toInt ≤ roundedPlace n.toInt := roundedPlace_mono hmn
  rw [atMost_float_int, int_eq_int, float_eq_int, float_eq_int]
  rw [hp, Option.some.injEq, Option.some.injEq]
  refine ⟨⟨p, rfl, Int.le_trans hpm hrounded⟩, ?_⟩
  constructor
  · intro hpn
    have hpm' : p = roundedPlace m.toInt := by omega
    exact ⟨hpm', happart hpm' hpn⟩
  · rintro ⟨hpm, heq⟩
    rw [hpm, heq]

end

/-! ### Any scalars -/

theorem chains_of_not_merged {a b c : Scalar} (h : ¬ Merged [a, b, c]) : Chains a b c := by
  cases a with
  | bool p =>
      cases b with
      | bool q =>
          cases c with
          | bool r => exact chains_of_compare (compare?_bool p q) (compare?_bool q r) rfl
          | int _ | float _ | text _ => exact chains_of_right rfl
      | int _ | float _ | text _ => exact chains_of_left rfl
  | text s =>
      cases b with
      | text t =>
          cases c with
          | text u => exact chains_of_compare (compare?_text s t) (compare?_text t u) rfl
          | bool _ | int _ | float _ => exact chains_of_right rfl
      | bool _ | int _ | float _ => exact chains_of_left rfl
  | int m =>
      cases b with
      | int n =>
          cases c with
          | int k => exact chains_of_compare (compare?_int m n) (compare?_int n k) rfl
          | float z => exact chains_int_int_float h
          | bool _ | text _ => exact chains_of_right rfl
      | float y =>
          cases c with
          | int k => exact chains_int_float_int h
          | float z =>
              exact chains_of_places (compare?_float_right _ y) (compare?_float_left y _)
                (compare?_float_right _ z)
          | bool _ | text _ => exact chains_of_right rfl
      | bool _ | text _ => exact chains_of_left rfl
  | float x =>
      cases b with
      | int n =>
          cases c with
          | int k => exact chains_float_int_int h
          | float z =>
              exact chains_of_places (compare?_float_left x _) (compare?_float_right _ z)
                (compare?_float_left x _)
          | bool _ | text _ => exact chains_of_right rfl
      | float y =>
          exact chains_of_places (compare?_float_left x _) (compare?_float_left y _)
            (compare?_float_left x _)
      | bool _ | text _ => exact chains_of_left rfl

/-- Two steps of which one is strict lead strictly on. -/
theorem Chains.lt {a b c : Scalar} (h : Chains a b c) (hab : a.AtMost b) (hbc : b.AtMost c)
    (hstrict : ¬ (a.compare? b = some .eq ∧ b.compare? c = some .eq)) :
    a.compare? c = some .lt := by
  obtain ⟨⟨o, ho, hle⟩, hequal⟩ := h hab hbc
  cases o with
  | lt => exact ho
  | eq => exact absurd (hequal.mp ho) hstrict
  | gt => cases hle

section

variable {s : List Scalar} {a b c : Scalar} (hs : Consistent s) (ha : a ∈ s) (hb : b ∈ s)
  (hc : c ∈ s)
include hs ha hb hc

/-- An equal scalar is in the same order to a third one. -/
theorem Consistent.compare?_of_eq (heq : a.compare? b = some .eq) {o : Ordering}
    (ho : b.compare? c = some o) : a.compare? c = some o := by
  cases o with
  | lt =>
      exact (hs a ha b hb c hc).lt ⟨_, heq, rfl⟩ ⟨_, ho, rfl⟩ (by rw [ho]; simp)
  | eq => exact (hs a ha b hb c hc ⟨_, heq, rfl⟩ ⟨_, ho, rfl⟩).2.mpr ⟨heq, ho⟩
  | gt =>
      have hcb : c.compare? b = some .lt := by rw [compare?_swap b c, ho]; rfl
      have hba : b.compare? a = some .eq := by rw [compare?_swap a b, heq]; rfl
      have hca : c.compare? a = some .lt :=
        (hs c hc b hb a ha).lt ⟨_, hcb, rfl⟩ ⟨_, hba, rfl⟩ (by rw [hcb]; simp)
      rw [compare?_swap c a, hca]
      rfl

theorem Consistent.compare?_congr (heq : a.compare? b = some .eq) :
    a.compare? c = b.compare? c := by
  have hba : b.compare? a = some .eq := by rw [compare?_swap a b, heq]; rfl
  apply Option.ext
  intro o
  exact ⟨hs.compare?_of_eq hb ha hc hba, hs.compare?_of_eq ha hb hc heq⟩

end

theorem consistent_of_not_merged {s : List Scalar} (h : ¬ Merged s) : Consistent s := by
  intro a ha b hb c hc
  apply chains_of_not_merged
  intro hmerged
  exact h (hmerged.mono (by simp [ha, hb, hc]))

theorem Consistent.not_merged {s : List Scalar} (hs : Consistent s) : ¬ Merged s := by
  rintro ⟨m, n, x, hm, hn, hx, hne, hmx, hnx⟩
  have hxn : (float x).compare? (int n) = some .eq := by rw [compare?_swap (int n), hnx]; rfl
  exact hne (Int64.toInt_inj.mp (int_eq_int.mp (hs.compare?_of_eq hm hx hn hmx hxn)))

/-- Up to `2 ^ 53` no two integers are merged. -/
theorem not_merged_of_le {s : List Scalar}
    (h : ∀ n, int n ∈ s → n.toInt.natAbs ≤ twoTo 53) : ¬ Merged s := by
  rintro ⟨m, n, x, hm, hn, -, hne, hmx, hnx⟩
  rw [int_eq_float] at hmx hnx
  have hplace := Option.some.inj (hmx.symm.trans hnx)
  rcases Int.lt_trichotomy m.toInt n.toInt with hlt | heq | hlt
  · exact absurd hplace (Int.ne_of_lt (roundedPlace_lt (h m hm) (h n hn) hlt))
  · exact hne (Int64.toInt_inj.mp heq)
  · exact absurd hplace.symm (Int.ne_of_lt (roundedPlace_lt (h n hn) (h m hm) hlt))

/-- Compared the other way round, two scalars are in the reverse order. The order leads on over any
three scalars unless one of them is a binary number and the others are different integers that are
both equal to it. Up to `2 ^ 53` no integers are. -/
theorem compare?_consistent :
    (∀ a b : Scalar, b.compare? a = (a.compare? b).map Ordering.swap) ∧
      (∀ a b c : Scalar, ¬ Merged [a, b, c] →
        Chains a b c ∧ (a.compare? b = some .eq → a.compare? c = b.compare? c)) ∧
      (∀ s : List Scalar, Consistent s ↔ ¬ Merged s) ∧
      ∀ s : List Scalar, (∀ n, int n ∈ s → n.toInt.natAbs ≤ twoTo 53) → ¬ Merged s := by
  refine ⟨compare?_swap, ?_, fun s => ⟨Consistent.not_merged, consistent_of_not_merged⟩,
    fun s => not_merged_of_le⟩
  intro a b c h
  have hs := consistent_of_not_merged h
  exact ⟨chains_of_not_merged h, hs.compare?_congr (by simp) (by simp) (by simp)⟩

/-- An integer beyond `2 ^ 53` that is equal to a binary number compares to a third integer as that
number does, which the third one is not equal to. -/
theorem compare?_consistent_rounded :
    ¬ Merged [int 9007199254740997, float (Binary64.ofInt 9007199254740996),
        int 9007199254740993] ∧
      (int 9007199254740997).compare? (float (Binary64.ofInt 9007199254740996)) = some .eq ∧
      (int 9007199254740997).compare? (int 9007199254740993) =
        (float (Binary64.ofInt 9007199254740996)).compare? (int 9007199254740993) := by
  have hequal : (int 9007199254740997).compare? (float (Binary64.ofInt 9007199254740996)) =
      some .eq := by decide +kernel
  have hless : (int 9007199254740993).compare? (float (Binary64.ofInt 9007199254740996)) =
      some .lt := by decide +kernel
  have happart : ¬ Merged [int 9007199254740997, float (Binary64.ofInt 9007199254740996),
      int 9007199254740993] := by
    rintro ⟨m, n, x, hm, hn, hx, hne, hmx, hnx⟩
    have eq_of_mem {k : Int64} (hk : int k ∈ [int 9007199254740997,
        float (Binary64.ofInt 9007199254740996), int 9007199254740993])
        (hkx : (int k).compare? (float x) = some .eq) : k = 9007199254740997 := by
      simp only [List.mem_cons, int.injEq, float.injEq, reduceCtorEq, List.not_mem_nil, or_false,
        false_or] at hk hx
      rcases hk with rfl | rfl
      · rfl
      · rw [hx, hless] at hkx
        cases hkx
    exact hne ((eq_of_mem hm hmx).trans (eq_of_mem hn hnx).symm)
  exact ⟨happart, hequal, (compare?_consistent.2.1 _ _ _ happart).2 hequal⟩

/-- The binary number `2 ^ 53` is equal to two integers, of which one is greater than the other. -/
theorem compare?_merged :
    (int 9007199254740993).compare? (float (Binary64.ofInt 9007199254740992)) = some .eq ∧
      (float (Binary64.ofInt 9007199254740992)).compare? (int 9007199254740992) = some .eq ∧
      (int 9007199254740993).compare? (int 9007199254740992) = some .gt := by
  decide +kernel

end Scalar

end CriteriaQuery
