import Mathlib.Algebra.Order.Ring.Nat
import Mathlib.Data.Nat.Log

/-! Whole numbers in a binary floating point format. A number with more bits than
the significand has goes to the nearest one with a last place of its size, in the
middle to the even one. -/

namespace FinanceTech.Library.WholeFloat

variable {precision number exact : Nat}

/-- The value of the last place of a number. -/
def lastPlace (precision number : Nat) : Nat := 2 ^ (number.log2 + 1 - precision)

def round (precision number : Nat) : Nat :=
  let unit := lastPlace precision number
  let below := number / unit
  let rest := number % unit
  if 2 * rest < unit ∨ 2 * rest = unit ∧ below % 2 = 0 then below * unit else (below + 1) * unit

/-- A number that fits the significand is itself. -/
theorem round_exact (positive : 0 < precision) (fits : exact < 2 ^ precision) : round precision exact = exact := by
  have unit : lastPlace precision exact = 1 := by
    unfold lastPlace
    by_cases zero : exact = 0
    · subst zero
      rw [Nat.log2_zero, Nat.sub_eq_zero_of_le positive, Nat.pow_zero]
    · have short := (Nat.log2_lt zero).mpr fits
      rw [Nat.sub_eq_zero_of_le short, Nat.pow_zero]
  simp [round, unit, Nat.mod_one]

/-- Rounding does not go below the highest place. -/
theorem le_round (positive : 0 < precision) (long : 2 ^ precision ≤ number) : 2 ^ precision ≤ round precision number := by
  have some : number ≠ 0 := Nat.ne_of_gt (Nat.lt_of_lt_of_le (Nat.two_pow_pos precision) long)
  have high : precision ≤ number.log2 := (Nat.le_log2 some).mpr long
  have top := Nat.log2_self_le some
  have split : 2 ^ number.log2 = 2 ^ (precision - 1) * lastPlace precision number := by
    rw [lastPlace, ← Nat.pow_add]
    congr 1
    omega
  have below : 2 ^ (precision - 1) ≤ number / lastPlace precision number := by
    rw [split] at top
    exact (Nat.le_div_iff_mul_le (Nat.two_pow_pos _)).mpr top
  have kept : 2 ^ precision ≤ number / lastPlace precision number * lastPlace precision number := by
    calc 2 ^ precision ≤ 2 ^ number.log2 := Nat.pow_le_pow_right (by decide) high
      _ = 2 ^ (precision - 1) * lastPlace precision number := split
      _ ≤ number / lastPlace precision number * lastPlace precision number := Nat.mul_le_mul_right _ below
  simp only [round]
  split
  · exact kept
  · exact kept.trans (Nat.mul_le_mul_right _ (Nat.le_succ _))

/-- No other number is rounded to one that fits the significand. -/
theorem round_eq_iff (positive : 0 < precision) (fits : exact < 2 ^ precision) : round precision number = exact ↔ number = exact := by
  constructor
  · intro same
    by_cases short : number < 2 ^ precision
    · rwa [round_exact positive short] at same
    · have long := le_round positive (Nat.not_lt.mp short)
      omega
  · rintro rfl
    exact round_exact positive fits

end FinanceTech.Library.WholeFloat
