import CriteriaQuery.Compile.Page
import Mathlib.Data.Nat.Init
import Mathlib.Data.UInt
import Mathlib.Logic.ExistsUnique

/-!
# Pages of a result

The pages of one size lie side by side: each row stands on exactly one of them, up to the greatest
offset that a word can tell. No limits and no requested page make a step of the computation fail.

## Implementation notes

A page whose offset is cut to the greatest word holds no row below it, so of the pages that reach a
row only the exact offsets matter, and these are the multiples of the size.
-/

namespace CriteriaQuery

namespace PageWindow

/-- A row stands in a window, where the end of the window may be beyond all words. -/
def Covers (w : PageWindow) (row : Nat) : Prop :=
  w.offset.toNat ≤ row ∧ row < w.offset.toNat + w.limit.toNat

/-! ### Steps that may fail -/

/-- The difference of two words, if it is not negative. -/
def difference? (a b : UInt64) : Option UInt64 := if b ≤ a then some (a - b) else none

/-- A word moved between two bounds, if these are in order. -/
def between? (low high a : UInt64) : Option UInt64 :=
  if low ≤ high then some (min (max a low) high) else none

/-- The window of a requested page, by steps that fail where words leave their range. -/
def ofPager? (p : Pager) (limits : PageLimits) : Option PageWindow := do
  let limit ← between? 1 (max limits.maxSize 1) (p.size.getD limits.defaultSize)
  let before ← difference? (max p.page 1) 1
  return ⟨saturatingMul before limit, limit⟩

section Steps

variable (p : Pager) (limits : PageLimits)

theorem one_le_max (a : UInt64) : 1 ≤ max a 1 := by
  rw [UInt64.le_iff_toNat_le, UInt64.toNat_max]
  exact le_max_right _ _

/-- No step fails. -/
theorem ofPager?_eq : ofPager? p limits = some (ofPager p limits) := by
  simp only [ofPager?, between?, difference?, if_pos (one_le_max _)]
  rfl

/-! ### Sizes and offsets -/

theorem toNat_size :
    (size p limits).toNat =
      min (max (p.size.getD limits.defaultSize).toNat 1) (max limits.maxSize.toNat 1) := by
  rw [size, UInt64.toNat_min, UInt64.toNat_max, UInt64.toNat_max]
  rfl

theorem size_pos : 0 < (size p limits).toNat := by
  rw [toNat_size]
  omega

theorem size_le : size p limits ≤ max 1 limits.maxSize := by
  rw [UInt64.le_iff_toNat_le, toNat_size, UInt64.toNat_max, max_comm limits.maxSize.toNat]
  exact min_le_right _ _

/-- The offset is the size of the pages before, or the greatest word where it is less. -/
theorem toNat_offset : (ofPager p limits).offset.toNat =
    min ((p.page.toNat - 1) * (size p limits).toNat) maxWord := by
  have hbefore : (max p.page 1 - 1).toNat = p.page.toNat - 1 := by
    rw [UInt64.toNat_sub_of_le _ _ (one_le_max _), UInt64.toNat_max]
    have hone : (1 : UInt64).toNat = 1 := rfl
    omega
  rw [ofPager, toNat_saturatingMul, hbefore]

/-- Below the greatest word a page covers the rows whose quotient by the size is the number of
pages before it. -/
theorem covers_iff {row : Nat} (hrow : row < maxWord) :
    (ofPager p limits).Covers row ↔ row / (size p limits).toNat = p.page.toNat - 1 := by
  have hpos := size_pos p limits
  have hlimit : (ofPager p limits).limit = size p limits := rfl
  rw [Covers, toNat_offset, hlimit, Nat.div_eq_iff hpos]
  -- a cut offset is beyond the row, and an exact one stands in the bounds of the quotient
  omega

end Steps

variable (limits : PageLimits) (requested : Option UInt64)

/-- The page of a row comes behind as many pages as the size goes into the row. -/
theorem existsUnique_covers {row : Nat} (hrow : row < maxWord) :
    ∃! page : UInt64, 1 ≤ page ∧ (ofPager ⟨page, requested⟩ limits).Covers row := by
  let before := row / (size ⟨1, requested⟩ limits).toNat
  have hbefore : before ≤ row := Nat.div_le_self _ _
  -- the number of the page is a word because the row is below the greatest one
  have hnumber : (UInt64.ofNat (before + 1)).toNat = before + 1 := by
    apply UInt64.toNat_ofNat_of_lt'
    simp only [maxWord] at hrow
    omega
  refine ⟨.ofNat (before + 1), ⟨?_, ?_⟩, ?_⟩
  · rw [UInt64.le_iff_toNat_le, hnumber]
    exact Nat.le_add_left 1 before
  · rw [covers_iff _ _ hrow, hnumber]
    exact (Nat.add_sub_cancel before 1).symm
  · rintro page ⟨hpage, hcovers⟩
    have hquotient : before = page.toNat - 1 := (covers_iff _ _ hrow).mp hcovers
    have hfirst : 1 ≤ page.toNat := UInt64.le_iff_toNat_le.mp hpage
    rw [← UInt64.toNat_inj, hnumber, hquotient, Nat.sub_add_cancel hfirst]

/-- Whatever the limits and the requested size: no step of the computation fails, every page has the
same size, between one and the greatest allowed, the page zero is the first one, and each row below
the greatest word stands on exactly one page. -/
theorem pages_tile :
    (∀ page, ofPager? ⟨page, requested⟩ limits = some (ofPager ⟨page, requested⟩ limits)) ∧
      (∃ limit : UInt64, 1 ≤ limit ∧ limit ≤ max 1 limits.maxSize ∧ ∀ page,
        (ofPager ⟨page, requested⟩ limits).limit = limit ∧
          (ofPager ⟨page, requested⟩ limits).offset.toNat =
            min ((page.toNat - 1) * limit.toNat) maxWord) ∧
      ofPager ⟨0, requested⟩ limits = ofPager ⟨1, requested⟩ limits ∧
      ∀ row < maxWord, ∃! page : UInt64, 1 ≤ page ∧
        (ofPager ⟨page, requested⟩ limits).Covers row := by
  refine ⟨fun page => ofPager?_eq _ limits, ?_, rfl, fun row => existsUnique_covers limits requested⟩
  refine ⟨size ⟨1, requested⟩ limits, ?_, size_le _ limits, fun page => ⟨rfl, ?_⟩⟩
  · exact UInt64.le_iff_toNat_le.mpr (size_pos _ limits)
  · exact toNat_offset ⟨page, requested⟩ limits

/-- Where no size is allowed, pages have one row, and the last row has the greatest number of a
page. -/
theorem pages_tile_last : maxWord - 1 < maxWord ∧
    (∃! page : UInt64, 1 ≤ page ∧ (ofPager ⟨page, none⟩ ⟨20, 0⟩).Covers (maxWord - 1)) ∧
      (ofPager ⟨18446744073709551615, none⟩ ⟨20, 0⟩).Covers (maxWord - 1) := by
  have hlast : maxWord - 1 < maxWord := by decide
  obtain ⟨-, -, -, hrows⟩ := pages_tile ⟨20, 0⟩ none
  refine ⟨hlast, hrows _ hlast, ?_⟩
  unfold Covers
  decide

end PageWindow

end CriteriaQuery
