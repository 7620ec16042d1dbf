import FinanceTech.ScaledValue

/-! The position of the trading core and the profit its trades realize. The
source computes products in 128 bits, where they cannot overflow, so they are
integers here. -/

namespace FinanceTech.Trading
open Library

structure ExecutionReport where
  clientOrderId : OrderId := 0
  exchangeOrderId : ExchangeOrderId := 0
  instrument : InstrumentId := 0
  side : Side := .buy
  execType : ExecType := .new
  status : OrderStatus := .new
  price : Price := 0
  quantity : Quantity := 0
  filledQuantity : Quantity := 0
deriving DecidableEq, Repr

/-- Nothing ever writes the `realizedPnL` of the source, so it is left out. -/
structure Position where
  instrument : InstrumentId := 0
  currentQuantity : Int64 := 0
  averageEntryPrice : Price := 0
deriving DecidableEq, Repr

/-- `std::abs`, whose result for the least value is undefined. -/
def stdAbs (value : Int64) : Int64 := if value < 0 then -value else value

namespace Position

def applyTrade (position : Position) (side : Side) (price : Price) (quantity : Quantity) : Position :=
  if quantity.isZero then position
  else
    let executionQuantity := quantity.raw
    let signedQuantity := if side = .buy then executionQuantity else -executionQuantity
    if position.currentQuantity = 0 then
      { position with currentQuantity := signedQuantity, averageEntryPrice := price }
    else
      let absoluteCurrentQuantity := stdAbs position.currentQuantity
      let absoluteExecutionQuantity := stdAbs signedQuantity
      if position.currentQuantity > 0 ↔ signedQuantity > 0 then
        let totalQuantity := absoluteCurrentQuantity + absoluteExecutionQuantity
        let weightedPrice := position.averageEntryPrice.raw.toInt * absoluteCurrentQuantity.toInt +
          price.raw.toInt * absoluteExecutionQuantity.toInt
        { position with
          currentQuantity := position.currentQuantity + signedQuantity
          averageEntryPrice := ⟨Int64.ofInt (weightedPrice.tdiv totalQuantity.toInt)⟩ }
      else if absoluteExecutionQuantity < absoluteCurrentQuantity then
        { position with currentQuantity := position.currentQuantity + signedQuantity }
      else if absoluteExecutionQuantity = absoluteCurrentQuantity then
        { position with currentQuantity := 0, averageEntryPrice := 0 }
      else { position with currentQuantity := position.currentQuantity + signedQuantity, averageEntryPrice := price }

end Position

/-- The profit calculator and the risk manager each have this helper. -/
def absolute (value : Int) : Int := if value < 0 then -value else value

namespace PnLCalculator

def PRICE_SCALE : Int := ScaledValue.Scale.toInt

def fromProduct (priceDifference quantity : Int) : Price := ⟨Int64.ofInt ((priceDifference * quantity).tdiv PRICE_SCALE)⟩

def calculateRealized (position : Position) (report : ExecutionReport) : Price :=
  if report.execType ≠ .trade ∨ report.quantity.isZero then 0
  else if position.currentQuantity = 0 then 0
  else
    let executionQuantity := report.quantity.raw
    if position.currentQuantity > 0 ∧ report.side = .sell then
      let closedQuantity := min position.currentQuantity executionQuantity
      fromProduct (report.price.raw.toInt - position.averageEntryPrice.raw.toInt) closedQuantity.toInt
    else if position.currentQuantity < 0 ∧ report.side = .buy then
      let closedQuantity := min (absolute position.currentQuantity.toInt) executionQuantity.toInt
      fromProduct (position.averageEntryPrice.raw.toInt - report.price.raw.toInt) closedQuantity
    else 0

end PnLCalculator
end FinanceTech.Trading
