import FinanceTech.ExecutionReportHandler
import FinanceTech.PnLCalculator
import FinanceTech.Proofs.PnlAccounting

/-! What the profit calculator values. Its realized part follows the quantity a
position closes for every report of a positive quantity, and its unrealized part
marks the position as it was before the report. -/

namespace FinanceTech.Proofs.PnlValuation
open Library Trading PnLCalculator PnlAccounting

/-- How much of the open quantity applying the trade takes away. -/
def closedQuantity (position : Position) (report : ExecutionReport) : Int :=
  Holding.closed position.currentQuantity.toInt (apply position report).currentQuantity.toInt

/-- Every value that the position and the calculator compute for a report fits
its 64 bits. -/
structure ValuesFit (position : Position) (report : ExecutionReport) : Prop where
  trade : Representable position.currentQuantity.toInt (signedOf report)
  realized : Faces position report → Fits ((priceDifference position report.price *
    min |position.currentQuantity.toInt| report.quantity.raw.toInt).tdiv PRICE_SCALE)

section Report

variable {position : Position} {report : ExecutionReport}

private theorem accepted_iff (manager : PositionManager) : (manager.applyExecution report).1 = true ↔
    report.execType = .trade ∧ report.quantity.isZero = false := by
  rw [PositionManager.applyExecution]
  split
  next refused =>
    refine ⟨fun absurd => Bool.noConfusion absurd, ?_⟩
    rintro ⟨trade, some⟩
    rcases refused with other | none
    · exact absurd trade other
    · exact Bool.noConfusion (none.symm.trans some)
  next accepted =>
    rw [not_or, not_not, Bool.not_eq_true] at accepted
    exact ⟨fun _ => accepted, fun _ => rfl⟩

theorem closedQuantity_eq (representable : Representable position.currentQuantity.toInt (signedOf report)) :
    closedQuantity position report = if (holdingOf position).Closes (signedOf report) then
      min |position.currentQuantity.toInt| |signedOf report| else 0 := by
  rw [closedQuantity, apply_representable representable]
  exact Holding.closed_eq (holdingOf position) (signedOf report)

private theorem raw_realized (trade : report.execType = .trade) (some : report.quantity.isZero = false) (fits : ValuesFit position report) :
    (calculateRealized position report).raw.toInt = if Faces position report then
      (priceDifference position report.price * min |position.currentQuantity.toInt| report.quantity.raw.toInt).tdiv PRICE_SCALE
    else 0 := by
  rw [calculateRealized_eq trade some]
  split
  next faces => exact toInt_ofInt_of_fits (fits.realized faces)
  next => rfl

private theorem signed_faces (faces : Faces position report) : 0 < position.currentQuantity.toInt ∧ signedOf report = -report.quantity.raw.toInt ∨
    position.currentQuantity.toInt < 0 ∧ signedOf report = report.quantity.raw.toInt := by
  rcases faces with ⟨long, sells⟩ | ⟨short, buys⟩
  · exact .inl ⟨long, by rw [signedOf, if_neg (by simp [sells])]⟩
  · exact .inr ⟨short, by rw [signedOf, if_pos buys]⟩

/-- The quantity that a report of a negative quantity is taken to close, or
closes without being taken to. -/
def misvalued (position : Position) (report : ExecutionReport) : Int :=
  if Faces position report then report.quantity.raw.toInt
  else min |position.currentQuantity.toInt| |report.quantity.raw.toInt|

private theorem closed_positive (positive : 0 < report.quantity.raw.toInt)
    (representable : Representable position.currentQuantity.toInt (signedOf report)) :
    closedQuantity position report =
      if Faces position report then min |position.currentQuantity.toInt| report.quantity.raw.toInt else 0 := by
  rw [closedQuantity_eq representable]
  simp only [closes_iff_faces positive]
  split
  next faces =>
    rcases signed_faces faces with ⟨-, signed⟩ | ⟨-, signed⟩
    · rw [signed, abs_neg, abs_of_pos positive]
    · rw [signed, abs_of_pos positive]
  next => rfl

private theorem closed_negative (negative : report.quantity.raw.toInt < 0) (opened : position.currentQuantity.toInt ≠ 0)
    (representable : Representable position.currentQuantity.toInt (signedOf report)) :
    closedQuantity position report =
      if Faces position report then 0 else min |position.currentQuantity.toInt| |report.quantity.raw.toInt| := by
  have size : |signedOf report| = |report.quantity.raw.toInt| := by
    rw [signedOf]
    split
    · rfl
    · exact abs_neg _
  have turned : (holdingOf position).Closes (signedOf report) ↔ ¬ Faces position report := by
    unfold Holding.Closes Faces holdingOf
    rw [signedOf]
    cases side : report.side with
    | buy => simp; omega
    | sell => simp; omega
  rw [closedQuantity_eq representable, size]
  simp only [turned, ite_not]

/-- For every report that the position manager accepts, the calculator realizes
what the position closes exactly when the quantity is positive, the position is
flat, or what a negative quantity gets wrong is worth less than one raw unit. -/
theorem realized_closed_iff (manager : PositionManager) (accepted : (manager.applyExecution report).1 = true)
    (fits : ValuesFit position report) :
    (calculateRealized position report).raw.toInt =
        (closedQuantity position report * priceDifference position report.price).tdiv PRICE_SCALE ↔
      0 < report.quantity.raw.toInt ∨ position.currentQuantity.toInt = 0 ∨
        |misvalued position report * priceDifference position report.price| < PRICE_SCALE := by
  obtain ⟨trade, some⟩ := (accepted_iff manager).mp accepted
  have realized := raw_realized trade some fits
  have size := fun value => Holding.tdiv_eq_zero_iff value scale_positive
  rcases lt_trichotomy report.quantity.raw.toInt 0 with negative | none | positive
  · by_cases flat : position.currentQuantity.toInt = 0
    · have still : ¬ Faces position report := by
        unfold Faces
        omega
      have nothing : closedQuantity position report = 0 := by
        rw [closedQuantity_eq fits.trade, if_neg]
        simp only [Holding.Closes, holdingOf, flat]
        omega
      rw [realized, if_neg still, nothing, zero_mul, Int.zero_tdiv]
      exact ⟨fun _ => .inr (.inl flat), fun _ => rfl⟩
    · have closed := closed_negative negative flat fits.trade
      have least : min |position.currentQuantity.toInt| report.quantity.raw.toInt = report.quantity.raw.toInt :=
        min_eq_right (negative.le.trans (abs_nonneg _))
      rw [realized, closed, misvalued, least, ← size]
      split
      next faces =>
        rw [zero_mul, Int.zero_tdiv, mul_comm]
        exact ⟨fun zero => .inr (.inr zero), fun cases => (cases.resolve_left negative.not_gt).resolve_left flat⟩
      next apart =>
        exact ⟨fun zero => .inr (.inr zero.symm), fun cases => ((cases.resolve_left negative.not_gt).resolve_left flat).symm⟩
  · rw [ScaledValue.isZero, decide_eq_false_iff_not, eq_zero_iff] at some
    exact absurd none some
  · rw [realized, closed_positive positive fits.trade]
    refine ⟨fun _ => .inl positive, fun _ => ?_⟩
    split
    · rw [mul_comm]
    · rw [zero_mul, Int.zero_tdiv]

end Report

def hundred : Position := { instrument := 1, currentQuantity := 10000000000, averageEntryPrice := ⟨10000000000⟩ }

/-- A sale at a hundred and ten, of this quantity. -/
def sale (quantity : Int64) : ExecutionReport := {
  clientOrderId := 1, instrument := 1, side := .sell, execType := .trade, price := ⟨11000000000⟩, quantity := ⟨quantity⟩ }

theorem sale_fits : ValuesFit hundred (sale 5000000000) ∧ ValuesFit hundred (sale (-5000000000)) :=
  ⟨⟨⟨by decide, by decide, by decide⟩, by decide⟩, ⟨⟨by decide, by decide, by decide⟩, by decide⟩⟩

theorem realized_closed_iff_sale :
    (calculateRealized hundred (sale 5000000000)).raw.toInt =
        (closedQuantity hundred (sale 5000000000) * priceDifference hundred (sale 5000000000).price).tdiv PRICE_SCALE ↔
      0 < (sale 5000000000).quantity.raw.toInt ∨ hundred.currentQuantity.toInt = 0 ∨
        |misvalued hundred (sale 5000000000) * priceDifference hundred (sale 5000000000).price| < PRICE_SCALE :=
  realized_closed_iff {} (by decide) sale_fits.1

/-- Selling minus fifty buys fifty more, and the calculator realizes a loss on
them. -/
theorem negative_sale_realizes : (({} : PositionManager).applyExecution (sale (-5000000000))).1 = true ∧
    ValuesFit hundred (sale (-5000000000)) ∧ (apply hundred (sale (-5000000000))).currentQuantity = 15000000000 ∧
    closedQuantity hundred (sale (-5000000000)) = 0 ∧ calculateRealized hundred (sale (-5000000000)) = ⟨-50000000000⟩ ∧
    (calculateRealized hundred (sale (-5000000000))).raw.toInt ≠
      (closedQuantity hundred (sale (-5000000000)) * priceDifference hundred (sale (-5000000000)).price).tdiv PRICE_SCALE :=
  ⟨by decide, sale_fits.2, by decide, by decide, by decide, by decide⟩

def mark (position : Position) (event : MarketEvent) : Price :=
  if 0 < position.currentQuantity.toInt then event.bestBid else event.bestAsk

def markQuantity (position : Position) (event : MarketEvent) : Quantity :=
  if 0 < position.currentQuantity.toInt then event.bestBidQuantity else event.bestAskQuantity

/-- What the market makes of a quantity of the position, in units of the scale. -/
def markedValue (position : Position) (event : MarketEvent) (quantity : Int) : Int :=
  (quantity * priceDifference position (mark position event)).tdiv PRICE_SCALE

/-- Somebody bids and somebody offers. -/
structure BothSides (event : MarketEvent) : Prop where
  bids : event.bestBidQuantity.isZero = false
  asks : event.bestAskQuantity.isZero = false

/-- Every value of a profit, and of the mark of the position the report leaves,
fits its 64 bits. -/
structure ProfitFits (position : Position) (report : ExecutionReport) (event : MarketEvent) : Prop where
  values : ValuesFit position report
  unrealized : Fits (markedValue position event |position.currentQuantity.toInt|)
  remaining : Fits (markedValue (apply position report) event |(apply position report).currentQuantity.toInt|)
  total : Fits ((calculateRealized position report).raw.toInt + (calculateUnrealized position event).raw.toInt)

section Mark

variable {position : Position} {report : ExecutionReport} {event : MarketEvent}

theorem calculateUnrealized_eq : calculateUnrealized position event =
    if (markQuantity position event).isZero then 0
    else fromProduct (priceDifference position (mark position event)) |position.currentQuantity.toInt| := by
  have long : position.currentQuantity > 0 ↔ 0 < position.currentQuantity.toInt := Int64.lt_iff_toInt_lt
  rw [calculateUnrealized, priceDifference, mark, markQuantity]
  simp only [eq_zero_iff, long]
  rcases lt_trichotomy position.currentQuantity.toInt 0 with sold | flat | bought
  · simp only [if_neg sold.ne, if_neg sold.not_gt, absolute_eq_abs]
  · have nothing : ∀ difference, fromProduct difference 0 = 0 := by
      intro difference
      rw [fromProduct, mul_zero, Int.zero_tdiv]
      rfl
    rw [if_pos flat, flat, abs_zero, nothing, ite_self]
  · simp only [if_neg bought.ne', if_pos bought, abs_of_pos bought]

private theorem raw_unrealized (sides : BothSides event) (fits : Fits (markedValue position event |position.currentQuantity.toInt|)) :
    (calculateUnrealized position event).raw.toInt = markedValue position event |position.currentQuantity.toInt| := by
  have present : (markQuantity position event).isZero = false := by
    rw [markQuantity]
    split
    · exact sides.bids
    · exact sides.asks
  rw [calculateUnrealized_eq, ← toInt_ofInt_of_fits fits, markedValue, mul_comm, present]
  rfl

private theorem remaining_closed (trade : IsTrade report) (fits : ValuesFit position report) (faces : Faces position report)
    (within : report.quantity.raw.toInt ≤ |position.currentQuantity.toInt|) :
    markedValue (apply position report) event |(apply position report).currentQuantity.toInt| =
      markedValue position event (|position.currentQuantity.toInt| - closedQuantity position report) := by
  have holding := apply_trades fits.trade
  have closes := (closes_iff_faces trade.positive).mpr faces
  have size := abs_signed trade
  have quantity := apply_representable fits.trade
  have closed := closedQuantity_eq fits.trade
  rw [if_pos closes, size, min_eq_right within] at closed
  rw [closed]
  rcases within.lt_or_eq with part | all
  · have average : (apply position report).averageEntryPrice.raw.toInt = position.averageEntryPrice.raw.toInt := by
      rw [Holding.trade_closes closes, if_pos (size.symm ▸ part)] at holding
      exact congrArg Holding.average holding
    rcases signed_faces faces with ⟨long, signed⟩ | ⟨short, signed⟩
    · rw [abs_of_pos long] at part ⊢
      have left : (apply position report).currentQuantity.toInt = position.currentQuantity.toInt - report.quantity.raw.toInt := by
        rw [quantity, signed, sub_eq_add_neg]
      have still : 0 < (apply position report).currentQuantity.toInt := by omega
      rw [abs_of_pos still, markedValue, markedValue, priceDifference, priceDifference, mark, mark, if_pos still, if_pos still,
        if_pos long, if_pos long, average, left]
    · rw [abs_of_neg short] at part ⊢
      have left : -(apply position report).currentQuantity.toInt = -position.currentQuantity.toInt - report.quantity.raw.toInt := by
        rw [quantity, signed]
        omega
      have still : (apply position report).currentQuantity.toInt < 0 := by omega
      rw [abs_of_neg still, markedValue, markedValue, priceDifference, priceDifference, mark, mark, if_neg still.not_gt,
        if_neg still.not_gt, if_neg short.not_gt, if_neg short.not_gt, average, left]
  · have flat : (apply position report).currentQuantity.toInt = 0 := by
      rw [quantity]
      rcases signed_faces faces with ⟨long, signed⟩ | ⟨short, signed⟩
      · rw [signed, all, abs_of_pos long, add_neg_cancel]
      · rw [signed, all, abs_of_neg short, add_neg_cancel]
    rw [all, sub_self, flat, abs_zero, markedValue, markedValue, zero_mul, zero_mul]

/-- The total profit of a report is what the position closes, at the price of the
report, and the whole position before the report, at the market: what a trade
closes is in both parts. -/
theorem total_marks_before (trade : IsTrade report) (sides : BothSides event) (fits : ProfitFits position report event) :
    (calculate position report event).total.raw.toInt =
        (closedQuantity position report * priceDifference position report.price).tdiv PRICE_SCALE +
          markedValue position event |position.currentQuantity.toInt| ∧
      (Faces position report → report.quantity.raw.toInt ≤ |position.currentQuantity.toInt| →
        |(calculate position report event).total.raw.toInt -
          ((calculateRealized position report).raw.toInt + (calculateUnrealized (apply position report) event).raw.toInt +
            markedValue position event (closedQuantity position report))| ≤ 1) := by
  have sum : (calculate position report event).total.raw.toInt =
      (calculateRealized position report).raw.toInt + (calculateUnrealized position event).raw.toInt :=
    toInt_add_of_fits fits.total
  have marked := raw_unrealized sides fits.unrealized
  constructor
  · have realized := raw_realized trade.execType (quantity_present trade) fits.values
    rw [sum, marked, realized, closed_positive trade.positive fits.values.trade]
    split
    · rw [mul_comm]
    · rw [zero_mul, Int.zero_tdiv]
  · intro faces within
    have after := (raw_unrealized sides fits.remaining).trans (remaining_closed trade fits.values faces within)
    rw [sum, marked, after]
    have error := Holding.tdiv_add_error ((|position.currentQuantity.toInt| - closedQuantity position report) *
      priceDifference position (mark position event))
      (closedQuantity position report * priceDifference position (mark position event)) scale_positive
    rw [← add_mul, sub_add_cancel] at error
    refine le_trans (le_of_eq (congrArg abs ?_)) error
    unfold markedValue
    ring

end Mark

/-- A market of a hundred and fifteen to a hundred and sixteen. -/
def market : MarketEvent := {
  instrument := 1, bestBid := ⟨11500000000⟩, bestBidQuantity := ⟨10000000000⟩, bestAsk := ⟨11600000000⟩
  bestAskQuantity := ⟨10000000000⟩ }

private theorem profit_fits : ProfitFits hundred (sale 5000000000) market :=
  ⟨sale_fits.1, by decide, by decide, by decide⟩

theorem total_marks_before_half :
    (calculate hundred (sale 5000000000) market).total.raw.toInt =
        (closedQuantity hundred (sale 5000000000) * priceDifference hundred (sale 5000000000).price).tdiv PRICE_SCALE +
          markedValue hundred market |hundred.currentQuantity.toInt| ∧
      (Faces hundred (sale 5000000000) → (sale 5000000000).quantity.raw.toInt ≤ |hundred.currentQuantity.toInt| →
        |(calculate hundred (sale 5000000000) market).total.raw.toInt -
          ((calculateRealized hundred (sale 5000000000)).raw.toInt +
            (calculateUnrealized (apply hundred (sale 5000000000)) market).raw.toInt +
            markedValue hundred market (closedQuantity hundred (sale 5000000000)))| ≤ 1) :=
  total_marks_before ⟨rfl, by decide⟩ ⟨rfl, rfl⟩ profit_fits

/-- Half of the position is sold: the total is two thousand, with the sold half
marked once more, and not twelve hundred and fifty. -/
theorem sold_half_marked : IsTrade (sale 5000000000) ∧ BothSides market ∧ ProfitFits hundred (sale 5000000000) market ∧
    (calculate hundred (sale 5000000000) market).total = ⟨200000000000⟩ ∧
    calculateRealized hundred (sale 5000000000) + calculateUnrealized (apply hundred (sale 5000000000)) market = ⟨125000000000⟩ ∧
    (calculate hundred (sale 5000000000) market).total ≠
      calculateRealized hundred (sale 5000000000) + calculateUnrealized (apply hundred (sale 5000000000)) market :=
  ⟨⟨rfl, by decide⟩, ⟨rfl, rfl⟩, profit_fits, by decide, by decide, by decide⟩

end FinanceTech.Proofs.PnlValuation
