import FinanceTech.Proofs.PositionHistory
import Mathlib.Algebra.Order.BigOperators.Group.List
import Mathlib.Algebra.Order.Field.Basic
import Mathlib.Algebra.Order.Ring.Rat

/-! How far rounding takes the average entry price away from the prices that
were paid. Each trade of the same direction truncates an average of truncated
averages, and each loses less than one unit on the quantity held. -/

namespace FinanceTech.Proofs.AverageRounding
open Library Trading PositionHistory
open PnlAccounting hiding tradesOf

/-- Trades of one side, with positive prices and quantities. -/
structure OneSided (side : Side) (executions : List Execution) : Prop where
  side : ∀ execution ∈ executions, execution.side = side
  price : ∀ execution ∈ executions, 0 < execution.price.raw.toInt
  quantity : ∀ execution ∈ executions, 0 < execution.quantity.raw.toInt

def totalQuantity (executions : List Execution) : Int := (executions.map fun execution => execution.quantity.raw.toInt).sum

def totalValue (executions : List Execution) : Int :=
  (executions.map fun execution => execution.price.raw.toInt * execution.quantity.raw.toInt).sum

/-- The exact average of the prices, weighted by the quantities. -/
def averagePrice (executions : List Execution) : ℚ := totalValue executions / totalQuantity executions

/-- A quantity of a side, negative for sells. -/
def directed (side : Side) (size : Int) : Int := if side = .buy then size else -size

theorem abs_directed (side : Side) {size : Int} (nonneg : 0 ≤ size) : |directed side size| = size := by
  cases side with
  | buy => exact abs_of_nonneg nonneg
  | sell => exact (abs_neg size).trans (abs_of_nonneg nonneg)

private theorem directed_add (side : Side) (first second : Int) :
    directed side first + directed side second = directed side (first + second) := by
  cases side with
  | buy => rfl
  | sell => exact (neg_add first second).symm

private theorem directed_direction (side : Side) {first second : Int} (left : 0 < first) (right : 0 < second) :
    0 < directed side first ∧ 0 < directed side second ∨ directed side first < 0 ∧ directed side second < 0 := by
  cases side with
  | buy => exact .inl ⟨left, right⟩
  | sell => exact .inr ⟨neg_lt_zero.mpr left, neg_lt_zero.mpr right⟩

private theorem fits_directed (side : Side) {size : Int} (nonneg : 0 ≤ size) (small : size < 2 ^ 63) : Fits (directed side size) := by
  apply fits_of_abs
  rw [abs_directed side nonneg, Fits]
  omega

private theorem representable_directed (side : Side) {held size : Int} (nonneg : 0 ≤ held) (positive : 0 ≤ size)
    (small : held + size < 2 ^ 63) : Representable (directed side held) (directed side size) := by
  refine ⟨fits_directed side positive (by omega), ?_, fun _ _ => ?_⟩
  · rw [directed_add]
    exact fits_directed side (by omega) small
  · rw [abs_directed side nonneg, abs_directed side positive]
    unfold Fits
    omega

variable {side : Side} {executions : List Execution}

theorem OneSided.tail {execution : Execution} {rest : List Execution} (sided : OneSided side (execution :: rest)) :
    OneSided side rest :=
  ⟨fun other member => sided.side other (.tail _ member), fun other member => sided.price other (.tail _ member),
    fun other member => sided.quantity other (.tail _ member)⟩

theorem OneSided.signed {execution : Execution} (sided : OneSided side executions) (member : execution ∈ executions) :
    execution.signed = directed side execution.quantity.raw.toInt := by
  rw [Execution.signed, signedInt, sided.side execution member]
  rfl

private theorem OneSided.totalQuantity_nonneg (sided : OneSided side executions) : 0 ≤ totalQuantity executions := by
  apply List.sum_nonneg
  intro quantity member
  obtain ⟨execution, present, rfl⟩ := List.mem_map.mp member
  exact (sided.quantity execution present).le

theorem OneSided.representable (sided : OneSided side executions) {held : Int} (nonneg : 0 ≤ held)
    (small : held + totalQuantity executions < 2 ^ 63) : AllRepresentable (directed side held) executions := by
  induction executions generalizing held with
  | nil => trivial
  | cons execution rest ih =>
    have signed := sided.signed (.head rest)
    have quantity := sided.quantity execution (.head rest)
    have remaining := sided.tail.totalQuantity_nonneg
    have split : totalQuantity (execution :: rest) = execution.quantity.raw.toInt + totalQuantity rest := rfl
    constructor
    · change Representable (directed side held) execution.signed
      rw [signed]
      exact representable_directed side nonneg quantity.le (by omega)
    · change AllRepresentable (directed side held + execution.signed) rest
      rw [signed, directed_add]
      exact ih sided.tail (by omega) (by omega)

theorem OneSided.totals (sided : OneSided side executions) :
    Holding.size (tradesOf executions) = totalQuantity executions ∧
      Holding.turnover (tradesOf executions) = totalValue executions := by
  have size : ∀ execution ∈ executions, |execution.signed| = execution.quantity.raw.toInt := by
    intro execution member
    rw [sided.signed member, abs_directed side (sided.quantity execution member).le]
  constructor
  · rw [Holding.size, tradesOf, List.map_map, totalQuantity]
    exact congrArg List.sum (List.map_congr_left size)
  · rw [Holding.turnover, tradesOf, List.map_map, totalValue]
    apply congrArg List.sum
    apply List.map_congr_left
    intro execution member
    exact congrArg (execution.price.raw.toInt * ·) (size execution member)

theorem OneSided.priced (sided : OneSided side executions) : ∀ trade ∈ tradesOf executions, 0 ≤ trade.2 := by
  intro trade member
  obtain ⟨execution, present, rfl⟩ := List.mem_map.mp member
  exact (sided.price execution present).le

private theorem OneSided.directions {first : Execution} {rest : List Execution} (sided : OneSided side (first :: rest)) :
    ∀ trade ∈ tradesOf rest, 0 < first.signed ∧ 0 < trade.1 ∨ first.signed < 0 ∧ trade.1 < 0 := by
  intro trade member
  obtain ⟨execution, present, rfl⟩ := List.mem_map.mp member
  rw [sided.signed (.head rest), sided.tail.signed present]
  exact directed_direction side (sided.quantity first (.head rest)) (sided.tail.quantity execution present)

/-- Of `n` trades of one side on a flat position, the exact average price is above
the stored one by at most `n - 1` raw units, and never below it. -/
theorem average_rounding {position : Position} (flat : position.currentQuantity = 0) (some : executions ≠ [])
    (sided : OneSided side executions) (range : totalQuantity executions < 2 ^ 63) :
    0 ≤ averagePrice executions - ((executions.foldl execute position).averageEntryPrice.raw.toInt : ℚ) ∧
      averagePrice executions - ((executions.foldl execute position).averageEntryPrice.raw.toInt : ℚ) ≤ executions.length - 1 := by
  obtain ⟨first, rest, rfl⟩ := List.exists_cons_of_ne_nil some
  have empty : (holdingOf position).quantity = 0 := (eq_zero_iff _).mp flat
  have zero : position.currentQuantity.toInt = directed side 0 := empty.trans (by cases side <;> rfl)
  have representable := sided.representable (le_refl 0) (by rwa [zero_add])
  rw [← zero] at representable
  have final := congrArg Holding.average (executions_holding representable)
  have moves : first.signed ≠ 0 := by
    rw [sided.signed (.head rest)]
    have opened := sided.quantity first (.head rest)
    rw [← abs_pos, abs_directed side opened.le]
    exact opened
  obtain ⟨size, value⟩ := sided.totals
  have deficit := @Holding.average_deficit _ empty _ (tradesOf rest) moves sided.directions sided.priced
  change Holding.size (tradesOf (first :: rest)) * ((holdingOf position).after (tradesOf (first :: rest))).average ≤
      Holding.turnover (tradesOf (first :: rest)) ∧ Holding.turnover (tradesOf (first :: rest)) -
        Holding.size (tradesOf (first :: rest)) * ((holdingOf position).after (tradesOf (first :: rest))).average ≤
          (tradesOf rest).length * Holding.size (tradesOf (first :: rest)) at deficit
  rw [size, value, ← final, tradesOf, List.length_map] at deficit
  obtain ⟨low, high⟩ := deficit
  have quantity : (0 : ℚ) < totalQuantity (first :: rest) := by
    have opened := sided.quantity first (.head rest)
    have remaining := sided.tail.totalQuantity_nonneg
    have split : totalQuantity (first :: rest) = first.quantity.raw.toInt + totalQuantity rest := rfl
    exact_mod_cast (by omega : 0 < totalQuantity (first :: rest))
  rw [averagePrice, List.length_cons, Nat.cast_succ, add_sub_cancel_right]
  constructor
  · rw [sub_nonneg, le_div_iff₀ quantity]
    exact_mod_cast (mul_comm _ _).trans_le low
  · rw [sub_le_iff_le_add, div_le_iff₀ quantity, add_mul]
    have bound := sub_le_iff_le_add.mp high
    rw [mul_comm (totalQuantity _) _] at bound
    exact_mod_cast bound

/-- Three buys, of which the second and the third round. -/
theorem average_rounding_three :
    let executions : List Execution := [⟨.buy, ⟨100⟩, ⟨3⟩⟩, ⟨.buy, ⟨101⟩, ⟨2⟩⟩, ⟨.buy, ⟨107⟩, ⟨4⟩⟩]
    0 ≤ averagePrice executions - ((executions.foldl execute {}).averageEntryPrice.raw.toInt : ℚ) ∧
      averagePrice executions - ((executions.foldl execute {}).averageEntryPrice.raw.toInt : ℚ) ≤ executions.length - 1 := by
  intro executions
  have sided : OneSided .buy executions := ⟨by decide, by decide, by decide⟩
  exact average_rounding rfl (List.cons_ne_nil _ _) sided (by decide)

end FinanceTech.Proofs.AverageRounding
