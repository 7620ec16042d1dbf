import FinanceTech.Library.MachineInteger
import Mathlib.Algebra.Order.Ring.Abs
import Mathlib.Algebra.Order.Ring.Int

/-! Products of 64-bit integers are formed in 128 bits and divided there. When
such a product stays in its range, and when the truncated quotient can be stored
in 64 bits again. -/

namespace FinanceTech.Library

/-- An integer that `__int128` holds exactly. -/
def FitsWide (value : Int) : Prop := -2 ^ 127 ≤ value ∧ value < 2 ^ 127

theorem fitsWide_of_abs {value : Int} (small : |value| < 2 ^ 127) : FitsWide value := by
  obtain ⟨lower, upper⟩ := abs_lt.mp small
  exact ⟨lower.le, upper⟩

/-- A sum or a difference of two 64-bit values times a 64-bit value. -/
theorem fitsWide_mul {first second : Int} (left : |first| < 2 ^ 64) (right : |second| ≤ 2 ^ 63) : FitsWide (first * second) := by
  have factor : |first| ≤ 2 ^ 64 - 1 := Int.le_sub_one_of_lt left
  apply fitsWide_of_abs
  calc
    |first * second| = |first| * |second| := abs_mul first second
    _ ≤ (2 ^ 64 - 1) * 2 ^ 63 := mul_le_mul factor right (abs_nonneg _) (by decide)
    _ < 2 ^ 127 := by decide

theorem Fits.abs_bound {value : Int} (fits : Fits value) : |value| ≤ 2 ^ 63 := by
  obtain ⟨lower, upper⟩ := fits
  exact abs_le.mpr ⟨lower, upper.le⟩

theorem Fits.abs_sub_lt {first second : Int} (left : Fits first) (right : Fits second) : |first - second| < 2 ^ 64 := by
  unfold Fits at left right
  apply abs_lt.mpr
  omega

/-! ### Truncated quotients -/

variable {value divisor limit : Int}

theorem tdiv_lt_iff (positive : 0 < divisor) (above : 0 < limit) : value.tdiv divisor < limit ↔ value < limit * divisor := by
  constructor
  · intro below
    have next : value < (value.tdiv divisor + 1) * divisor := Int.lt_tdiv_add_one_mul_self value positive
    exact next.trans_le (Int.mul_le_mul_of_nonneg_right below positive.le)
  · intro below
    rcases le_total 0 value with up | down
    · rw [Int.tdiv_eq_ediv_of_nonneg up]
      exact Int.ediv_lt_of_lt_mul positive below
    · have sign := Int.tdiv_le_tdiv positive down
      rw [Int.zero_tdiv] at sign
      exact sign.trans_lt above

theorem lt_tdiv_iff (positive : 0 < divisor) (above : 0 < limit) : -limit < value.tdiv divisor ↔ -(limit * divisor) < value := by
  have mirrored := @tdiv_lt_iff (-value) divisor limit positive above
  rw [Int.neg_tdiv] at mirrored
  exact neg_lt.trans (mirrored.trans neg_lt)

/-- A truncated quotient can be stored exactly when the product is within the
range, one unit of the divisor added below. -/
theorem fits_tdiv_iff (positive : 0 < divisor) :
    Fits (value.tdiv divisor) ↔ -((2 ^ 63 + 1) * divisor) < value ∧ value < 2 ^ 63 * divisor := by
  rw [← lt_tdiv_iff positive (by decide), ← tdiv_lt_iff positive (by decide), Fits]
  constructor
  · rintro ⟨lower, upper⟩
    exact ⟨by omega, upper⟩
  · rintro ⟨lower, upper⟩
    exact ⟨by omega, upper⟩

theorem toInt_ofInt_iff : (Int64.ofInt value).toInt = value ↔ Fits value := by
  constructor
  · intro same
    rw [← same]
    exact fits_toInt _
  · exact toInt_ofInt_of_fits

end FinanceTech.Library
