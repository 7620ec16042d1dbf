import FinanceTech.Library.WideInteger
import FinanceTech.Proofs.PnlValuation

/-! When the profit calculator is exact. Its products stay within the 128 bits
they are formed in, and the quotients are stored in 64 bits without a check. -/

namespace FinanceTech.Proofs.ProfitRange
open Library Trading PnLCalculator PnlAccounting PnlValuation

/-- What a report realizes before it is divided by the scale: the price
difference of the quantity it closes. -/
def realizedProduct (position : Position) (report : ExecutionReport) : Int :=
  if report.execType = .trade ∧ Faces position report then
    priceDifference position report.price * min |position.currentQuantity.toInt| report.quantity.raw.toInt
  else 0

/-- What the market makes of the position, before it is divided by the scale. -/
def unrealizedProduct (position : Position) (event : MarketEvent) : Int :=
  if (markQuantity position event).isZero then 0
  else priceDifference position (mark position event) * |position.currentQuantity.toInt|

/-- A product whose quotient by the scale is less than `2 ^ 63` and more than
`-(2 ^ 63 + 1)`. -/
def Storable (product : Int) : Prop := -((2 ^ 63 + 1) * PRICE_SCALE) < product ∧ product < 2 ^ 63 * PRICE_SCALE

instance (product : Int) : Decidable (Storable product) := inferInstanceAs (Decidable (_ ∧ _))

variable (position : Position) (report : ExecutionReport) (event : MarketEvent)

private theorem priceDifference_small (price : Price) : |priceDifference position price| < 2 ^ 64 := by
  rw [priceDifference]
  split
  · exact (fits_toInt _).abs_sub_lt (fits_toInt _)
  · exact (fits_toInt _).abs_sub_lt (fits_toInt _)

private theorem closedSize_small : |min |position.currentQuantity.toInt| report.quantity.raw.toInt| ≤ 2 ^ 63 := by
  have size := (fits_toInt position.currentQuantity).abs_bound
  have quantity := (fits_toInt report.quantity.raw).abs_bound
  rcases min_choice |position.currentQuantity.toInt| report.quantity.raw.toInt with held | traded
  · rw [held, abs_abs]
    exact size
  · rw [traded]
    exact quantity

theorem products_wide : FitsWide (realizedProduct position report) ∧ FitsWide (unrealizedProduct position event) := by
  have nothing : FitsWide 0 := by
    unfold FitsWide
    decide
  rw [realizedProduct, unrealizedProduct]
  constructor
  · split
    · exact fitsWide_mul (priceDifference_small position report.price) (closedSize_small position report)
    · exact nothing
  · split
    · exact nothing
    · apply fitsWide_mul (priceDifference_small position _)
      rw [abs_abs]
      exact (fits_toInt _).abs_bound

private theorem raw_fromProduct (difference quantity : Int) :
    (fromProduct difference quantity).raw = Int64.ofInt ((difference * quantity).tdiv PRICE_SCALE) := rfl

private theorem raw_calculateRealized :
    (calculateRealized position report).raw = Int64.ofInt ((realizedProduct position report).tdiv PRICE_SCALE) := by
  rw [realizedProduct]
  by_cases trade : report.execType = .trade
  · by_cases nothing : report.quantity.isZero = true
    · have none : report.quantity.raw.toInt = 0 := (eq_zero_iff _).mp (of_decide_eq_true nothing)
      have still : calculateRealized position report = 0 := by rw [calculateRealized, if_pos (.inr nothing)]
      rw [still, none, min_eq_right (abs_nonneg _), mul_zero, ite_self]
      rfl
    · rw [calculateRealized_eq trade (Bool.eq_false_iff.mpr nothing)]
      by_cases faces : Faces position report
      · rw [if_pos faces, if_pos ⟨trade, faces⟩, raw_fromProduct]
      · rw [if_neg faces, if_neg fun both => faces both.2]
        rfl
  · have still : calculateRealized position report = 0 := by rw [calculateRealized, if_pos (.inl trade)]
    rw [still, if_neg fun both => trade both.1]
    rfl

private theorem raw_calculateUnrealized :
    (calculateUnrealized position event).raw = Int64.ofInt ((unrealizedProduct position event).tdiv PRICE_SCALE) := by
  rw [calculateUnrealized_eq, unrealizedProduct]
  split
  · rfl
  · rfl

theorem narrow_exact_iff (product : Int) :
    (Int64.ofInt (product.tdiv PRICE_SCALE)).toInt = product.tdiv PRICE_SCALE ↔ Storable product :=
  toInt_ofInt_iff.trans (fits_tdiv_iff scale_positive)

/-- The realized profit is the exact quotient if and only if the price difference
times the closed quantity is storable, and so is the unrealized profit. -/
theorem profits_exact_iff :
    ((calculateRealized position report).raw.toInt = (realizedProduct position report).tdiv PRICE_SCALE ↔
      Storable (realizedProduct position report)) ∧
    ((calculateUnrealized position event).raw.toInt = (unrealizedProduct position event).tdiv PRICE_SCALE ↔
      Storable (unrealizedProduct position event)) := by
  rw [raw_calculateRealized, raw_calculateUnrealized]
  exact ⟨narrow_exact_iff _, narrow_exact_iff _⟩

/-- Ten thousand, bought at one and sold at ten million and one. -/
def bought : Position := { instrument := 1, currentQuantity := 1000000000000, averageEntryPrice := ⟨100000000⟩ }

def sold : ExecutionReport := {
  clientOrderId := 1, instrument := 1, side := .sell, execType := .trade, price := ⟨1000000100000000⟩
  quantity := ⟨1000000000000⟩ }

def bid : MarketEvent := { instrument := 1, bestBid := ⟨1000000100000000⟩, bestBidQuantity := ⟨1000000000000⟩ }

/-- A profit of a hundred billion is stored as a loss. -/
theorem profits_wrap :
    (realizedProduct bought sold).tdiv PRICE_SCALE = 10000000000000000000 ∧
    calculateRealized bought sold = ⟨-8446744073709551616⟩ ∧
    (calculateRealized bought sold).raw.toInt ≠ (realizedProduct bought sold).tdiv PRICE_SCALE ∧
    calculateUnrealized bought bid = ⟨-8446744073709551616⟩ ∧
    (calculateUnrealized bought bid).raw.toInt ≠ (unrealizedProduct bought bid).tdiv PRICE_SCALE := by
  decide

end FinanceTech.Proofs.ProfitRange
