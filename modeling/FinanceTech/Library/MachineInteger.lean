import Mathlib.Algebra.Ring.Int.Defs
import Mathlib.Data.UInt
import Mathlib.Order.Defs.Unbundled

/-! Machine integers as keys of sorted containers, where both directions of
their order are strict total orders, and their narrowing. -/

namespace FinanceTech.Library

instance uint32_ascending : IsStrictTotalOrder UInt32 (· < ·) where
  trichotomous := Std.Trichotomous.trichotomous (r := (· < · : UInt32 → UInt32 → Prop))
  irrefl := UInt32.lt_irrefl
  trans _ _ _ := UInt32.lt_trans

instance uint64_ascending : IsStrictTotalOrder UInt64 (· < ·) where
  trichotomous := Std.Trichotomous.trichotomous (r := (· < · : UInt64 → UInt64 → Prop))
  irrefl := UInt64.lt_irrefl
  trans _ _ _ := UInt64.lt_trans

instance uint64_descending : IsStrictTotalOrder UInt64 (· > ·) where
  trichotomous first second left right :=
    Std.Trichotomous.trichotomous (r := (· < · : UInt64 → UInt64 → Prop)) first second right left
  irrefl := UInt64.lt_irrefl
  trans _ _ _ left right := UInt64.lt_trans right left

instance int64_ascending : IsStrictTotalOrder Int64 (· < ·) where
  trichotomous first second left right := by
    rw [Int64.lt_iff_toInt_lt] at left right
    exact Int64.toInt_inj.mp (by omega)
  irrefl _ := Int64.lt_irrefl
  trans _ _ _ := Int64.lt_trans

instance int64_descending : IsStrictTotalOrder Int64 (· > ·) where
  trichotomous first second left right :=
    Std.Trichotomous.trichotomous (r := (· < · : Int64 → Int64 → Prop)) first second right left
  irrefl _ := Int64.lt_irrefl
  trans _ _ _ left right := Int64.lt_trans right left

theorem widen_narrow {value : UInt64} (small : value < 2 ^ 32) : value.toUInt32.toUInt64 = value := by
  apply UInt64.toNat_inj.mp
  rw [UInt32.toNat_toUInt64, UInt64.toNat_toUInt32]
  exact Nat.mod_eq_of_lt (UInt64.lt_iff_toNat_lt.mp small)

theorem narrow_eq_zero {value : UInt64} (small : value < 2 ^ 32) : value.toUInt32 = 0 ↔ value = 0 := by
  constructor
  · intro zero
    rw [← widen_narrow small, zero]
    rfl
  · rintro rfl
    rfl

/-! ### Signed arithmetic that does not leave its range -/

/-- An integer that an `Int64` holds exactly. -/
def Fits (value : Int) : Prop := -2 ^ 63 ≤ value ∧ value < 2 ^ 63

instance (value : Int) : Decidable (Fits value) := inferInstanceAs (Decidable (_ ∧ _))

theorem Fits.bmod_eq {value : Int} (fits : Fits value) : value.bmod (2 ^ 64) = value := by
  obtain ⟨lower, upper⟩ := fits
  apply Int.bmod_eq_of_le_mul_two
  · omega
  · omega

theorem fits_toInt (value : Int64) : Fits value.toInt := ⟨value.le_toInt, value.toInt_lt⟩

theorem toInt_ofInt_of_fits {value : Int} (fits : Fits value) : (Int64.ofInt value).toInt = value :=
  Int64.toInt_ofInt_of_le fits.1 fits.2

theorem toInt_add_of_fits {first second : Int64} (fits : Fits (first.toInt + second.toInt)) :
    (first + second).toInt = first.toInt + second.toInt := by
  rw [Int64.toInt_add, fits.bmod_eq]

theorem toInt_neg_of_fits {value : Int64} (fits : Fits (-value.toInt)) : (-value).toInt = -value.toInt := by
  rw [Int64.toInt_neg, fits.bmod_eq]

end FinanceTech.Library
