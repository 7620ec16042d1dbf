import FinanceTech.Library.WideInteger
import FinanceTech.Proofs.OrderCreation

/-! What the risk check accepts, compared with the limits over exact amounts, and
what it does with requests that make the position smaller. -/

namespace FinanceTech.Proofs.RiskChecks
open Library Trading RiskManager OrderCreation

def Scale : Int := ScaledValue.Scale.toInt

theorem scale_positive : 0 < Scale := by decide

def notional (request : OrderRequest) : Int := request.price.raw.toInt * request.quantity.raw.toInt

/-- Every configured limit holds of the exact amounts. -/
structure WithinLimits (limits : RiskLimits) (position : Position) (request : OrderRequest) : Prop where
  orderQuantity : QuantityAllowed limits request
  positionQuantity : PositionAllowed limits position request
  notional : limits.maxNotional ≠ 0 → notional request ≤ limits.maxNotional.raw.toInt * Scale

/-- The values that the check computes in 128 bits. -/
def wideValues (limits : RiskLimits) (position : Position) (request : OrderRequest) : List Int :=
  let resultingPosition := position.currentQuantity.toInt + positionDelta request
  let quotient := (notional request).tdiv Scale
  [position.currentQuantity.toInt, request.quantity.raw.toInt, positionDelta request, resultingPosition,
    absolute resultingPosition, limits.maxPositionQuantity.raw.toInt, request.price.raw.toInt, notional request, quotient,
    absolute quotient, limits.maxNotional.raw.toInt]

variable {limits : RiskLimits} {position : Position} {request : OrderRequest}

private theorem abs_positionDelta (request : OrderRequest) : |positionDelta request| ≤ 2 ^ 63 := by
  rw [positionDelta]
  split
  · exact (fits_toInt _).abs_bound
  · rw [abs_neg]
    exact (fits_toInt _).abs_bound

theorem wideValues_fit (limits : RiskLimits) (position : Position) (request : OrderRequest) :
    ∀ value ∈ wideValues limits position request, FitsWide value := by
  have narrow : ∀ {value : Int}, |value| ≤ 2 ^ 64 → FitsWide value :=
    fun bound => fitsWide_of_abs (bound.trans_lt (by decide))
  have small : ∀ value : Int64, |value.toInt| ≤ 2 ^ 64 := fun value => (fits_toInt value).abs_bound.trans (by decide)
  have delta := abs_positionDelta request
  have result : |position.currentQuantity.toInt + positionDelta request| ≤ 2 ^ 64 := by
    have current := (fits_toInt position.currentQuantity).abs_bound
    have sum := abs_add_le position.currentQuantity.toInt (positionDelta request)
    omega
  have product : |notional request| < 2 ^ 127 := by
    have price := (fits_toInt request.price.raw).abs_bound
    have quantity := (fits_toInt request.quantity.raw).abs_bound
    calc
      |notional request| = |request.price.raw.toInt| * |request.quantity.raw.toInt| := abs_mul _ _
      _ ≤ 2 ^ 63 * 2 ^ 63 := mul_le_mul price quantity (abs_nonneg _) (by decide)
      _ < 2 ^ 127 := by decide
  have quotient : |(notional request).tdiv Scale| < 2 ^ 127 := by
    apply lt_of_le_of_lt ?_ product
    rw [Int.abs_eq_natAbs, Int.abs_eq_natAbs]
    exact_mod_cast Int.natAbs_tdiv_le_natAbs (notional request) Scale
  simp only [wideValues, List.forall_mem_cons, absolute_eq]
  refine ⟨narrow (small _), narrow (small _), narrow (delta.trans (by decide)), narrow result, narrow ?_, narrow (small _),
    narrow (small _), fitsWide_of_abs product, fitsWide_of_abs quotient, fitsWide_of_abs ?_, narrow (small _), ?_⟩
  · rwa [abs_abs]
  · rwa [abs_abs]
  · exact fun _ member => absurd member List.not_mem_nil

/-- The notional is truncated before it is compared, so it may reach up to the
next unit. -/
private theorem notionalAllowed_iff (positive : 0 < notional request) : NotionalAllowed limits request ↔
    (limits.maxNotional ≠ 0 → notional request < (limits.maxNotional.raw.toInt + 1) * Scale) := by
  have nonneg : 0 ≤ (notional request).tdiv Scale := Int.tdiv_nonneg positive.le scale_positive.le
  have compare : |(notional request).tdiv Scale| ≤ limits.maxNotional.raw.toInt ↔
      notional request < (limits.maxNotional.raw.toInt + 1) * Scale := by
    rw [abs_of_nonneg nonneg, ← Int.lt_add_one_iff]
    rcases lt_or_ge 0 (limits.maxNotional.raw.toInt + 1) with above | below
    · exact tdiv_lt_iff scale_positive above
    · have none : (limits.maxNotional.raw.toInt + 1) * Scale ≤ 0 := Int.mul_nonpos_of_nonpos_of_nonneg below scale_positive.le
      constructor
      · intro less
        omega
      · intro less
        omega
  exact imp_congr_right fun _ => compare

/-- The notional of an order that keeps the other limits is above its limit by
less than one unit. -/
structure JustAbove (limits : RiskLimits) (position : Position) (request : OrderRequest) : Prop where
  orderQuantity : QuantityAllowed limits request
  positionQuantity : PositionAllowed limits position request
  configured : limits.maxNotional ≠ 0
  above : limits.maxNotional.raw.toInt * Scale < notional request
  below : notional request < (limits.maxNotional.raw.toInt + 1) * Scale

/-- The check computes without overflow, and it accepts exactly the requests
within the limits unless the notional is just above its limit. -/
theorem accepts_within_iff (manager : RiskManager) (position : Position) {request : OrderRequest}
    (price : 0 < request.price.raw.toInt) (quantity : 0 < request.quantity.raw.toInt) :
    (∀ value ∈ wideValues manager.limits position request, FitsWide value) ∧
      (((manager.checkOrder request position).1 = .accepted ↔ WithinLimits manager.limits position request) ↔
        ¬ JustAbove manager.limits position request) := by
  refine ⟨wideValues_fit manager.limits position request, ?_⟩
  have truncated := @notionalAllowed_iff manager.limits request (mul_pos price quantity)
  have wider : manager.limits.maxNotional.raw.toInt * Scale < (manager.limits.maxNotional.raw.toInt + 1) * Scale :=
    Int.mul_lt_mul_of_pos_right (Int.lt_succ _) scale_positive
  rw [checkOrder_accepted_iff]
  constructor
  · intro agrees just
    have passes : Passes manager.limits position request :=
      ⟨just.orderQuantity, just.positionQuantity, truncated.mpr fun _ => just.below⟩
    exact just.above.not_ge ((agrees.mp passes).notional just.configured)
  · intro apart
    constructor
    · intro passes
      refine ⟨passes.orderQuantity, passes.positionQuantity, fun configured => ?_⟩
      by_contra exceeds
      exact apart ⟨passes.orderQuantity, passes.positionQuantity, configured, not_le.mp exceeds,
        truncated.mp passes.notional configured⟩
    · intro within
      refine ⟨within.orderQuantity, within.positionQuantity, truncated.mpr fun configured => ?_⟩
      exact (within.notional configured).trans_lt wider

/-- Buying a tenth of a unit at this price, in units of the scale. -/
def tenth (price : Int64) : OrderRequest := ⟨1, .buy, .limit, ⟨price⟩, ⟨10000000⟩⟩

def tenThousand : RiskManager := { limits := { maxNotional := ⟨1000000000000⟩ } }

theorem accepts_within_iff_tenth :
    (∀ value ∈ wideValues tenThousand.limits {} (tenth 10000000000001), FitsWide value) ∧
      (((tenThousand.checkOrder (tenth 10000000000001) {}).1 = .accepted ↔
          WithinLimits tenThousand.limits {} (tenth 10000000000001)) ↔
        ¬ JustAbove tenThousand.limits {} (tenth 10000000000001)) :=
  accepts_within_iff tenThousand {} (by decide) (by decide)

/-- A tenth of a unit at a hundred thousand and one raw unit costs more than ten
thousand, and is accepted. -/
theorem accepts_above_limit : (tenThousand.checkOrder (tenth 10000000000001) {}).1 = .accepted ∧
    ¬ WithinLimits tenThousand.limits {} (tenth 10000000000001) := by
  refine ⟨by decide, fun within => ?_⟩
  exact absurd (within.notional (by decide)) (by decide)

/-- What a request would leave of the position is smaller than the position. -/
def Reduces (position : Position) (request : OrderRequest) : Prop :=
  |position.currentQuantity.toInt + positionDelta request| < |position.currentQuantity.toInt|

/-- The check refuses a request for the position it would lead to. -/
def RejectedForPosition (manager : RiskManager) (request : OrderRequest) (position : Position) : Prop :=
  (manager.checkOrder request position).1 = .rejected ∧
    (manager.checkOrder request position).2.reason = .maxPositionQuantity

private theorem rejectedForPosition_iff (manager : RiskManager) (request : OrderRequest) (position : Position) :
    RejectedForPosition manager request position ↔
      QuantityAllowed manager.limits request ∧ ¬ PositionAllowed manager.limits position request := by
  rw [RejectedForPosition, checkOrder_eq]
  by_cases quantity : QuantityAllowed manager.limits request
  · by_cases allowed : PositionAllowed manager.limits position request
    · by_cases cheap : NotionalAllowed manager.limits request <;> simp [quantity, allowed, cheap]
    · simp [quantity, allowed]
  · simp [quantity]

/-- With a position limit, a request that makes the position smaller is rejected
for it exactly when what is left is still beyond the limit, and never from a
position within the limit. -/
theorem reducing_rejected_iff {manager : RiskManager} (limited : manager.limits.maxPositionQuantity ≠ 0) {position : Position}
    {request : OrderRequest} (reduces : Reduces position request) :
    (RejectedForPosition manager request position ↔ QuantityAllowed manager.limits request ∧
      manager.limits.maxPositionQuantity.raw.toInt < |position.currentQuantity.toInt + positionDelta request|) ∧
    (|position.currentQuantity.toInt| ≤ manager.limits.maxPositionQuantity.raw.toInt →
      ¬ RejectedForPosition manager request position) := by
  have beyond : ¬ PositionAllowed manager.limits position request ↔
      manager.limits.maxPositionQuantity.raw.toInt < |position.currentQuantity.toInt + positionDelta request| := by
    rw [PositionAllowed, Classical.not_imp, not_le]
    exact and_iff_right limited
  rw [rejectedForPosition_iff, beyond]
  refine ⟨Iff.rfl, fun within rejected => ?_⟩
  exact (rejected.2.trans reduces).not_ge within

def fifty : RiskManager := { limits := { maxPositionQuantity := ⟨50⟩ } }

theorem reducing_rejected_iff_sale :
    (RejectedForPosition fifty ⟨1, .sell, .limit, ⟨1⟩, ⟨10⟩⟩ { currentQuantity := 100 } ↔
      QuantityAllowed fifty.limits ⟨1, .sell, .limit, ⟨1⟩, ⟨10⟩⟩ ∧
        fifty.limits.maxPositionQuantity.raw.toInt < |(100 : Int64).toInt + positionDelta ⟨1, .sell, .limit, ⟨1⟩, ⟨10⟩⟩|) ∧
    (|(100 : Int64).toInt| ≤ fifty.limits.maxPositionQuantity.raw.toInt →
      ¬ RejectedForPosition fifty ⟨1, .sell, .limit, ⟨1⟩, ⟨10⟩⟩ { currentQuantity := 100 }) := by
  have limited : fifty.limits.maxPositionQuantity ≠ 0 := by decide
  have reduces : Reduces { currentQuantity := 100 } ⟨1, .sell, .limit, ⟨1⟩, ⟨10⟩⟩ := by
    unfold Reduces
    decide
  exact reducing_rejected_iff limited reduces

/-- Ten of a hundred cannot be sold once the limit has been lowered to fifty. -/
theorem reduction_rejected : ∃ (manager : RiskManager) (position : Position) (request : OrderRequest),
    manager.limits.maxPositionQuantity ≠ 0 ∧ Reduces position request ∧ RejectedForPosition manager request position := by
  refine ⟨({} : RiskManager).setLimits { maxPositionQuantity := ⟨50⟩ }, { currentQuantity := 100 },
    ⟨1, .sell, .limit, ⟨1⟩, ⟨10⟩⟩, by decide, ?_, by decide, by decide⟩
  unfold Reduces
  decide

end FinanceTech.Proofs.RiskChecks
