import CriteriaQuery.Document

/-!
# Page windows

A requested page becomes an offset and a limit. The page size is the requested one or else
the default, kept between one and the greatest size allowed; pages are counted from one, and
an offset beyond the greatest word is that word.
-/

namespace CriteriaQuery

/-- The page sizes that a session grants. -/
structure PageLimits where
  defaultSize : UInt64 := 20
  maxSize : UInt64 := 500
deriving DecidableEq

/-- How many rows to leave out and how many to take. -/
structure PageWindow where
  offset : UInt64
  limit : UInt64
deriving DecidableEq

/-- The product of two words, or the greatest word when the product is greater. -/
def saturatingMul (a b : UInt64) : UInt64 := UInt64.ofNat (min (a.toNat * b.toNat) maxWord)

theorem toNat_saturatingMul (a b : UInt64) :
    (saturatingMul a b).toNat = min (a.toNat * b.toNat) maxWord := by
  simp only [saturatingMul, UInt64.toNat_ofNat']
  exact Nat.mod_eq_of_lt (by simp only [maxWord, UInt64.size]; omega)

namespace PageWindow

/-- The size of a page under the limits. -/
def size (p : Pager) (limits : PageLimits) : UInt64 :=
  min (max (p.size.getD limits.defaultSize) 1) (max limits.maxSize 1)

/-- The window of a requested page. -/
def ofPager (p : Pager) (limits : PageLimits) : PageWindow :=
  let limit := size p limits
  ⟨saturatingMul (max p.page 1 - 1) limit, limit⟩

end PageWindow

end CriteriaQuery
