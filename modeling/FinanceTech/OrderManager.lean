import FinanceTech.Library.SortedMap
import FinanceTech.Position

/-! Order creation, risk validation and execution reports. The gateway is the
log of what was sent through it. -/

namespace FinanceTech.Trading
open Library

structure OrderRequest where
  instrument : InstrumentId
  side : Side
  type : OrderType
  price : Price
  quantity : Quantity
deriving DecidableEq, Repr

structure Order where
  clientOrderId : OrderId := 0
  exchangeOrderId : ExchangeOrderId := 0
  instrument : InstrumentId := 0
  side : Side := .buy
  type : OrderType := .limit
  price : Price := 0
  quantity : Quantity := 0
  filledQuantity : Quantity := 0
  status : OrderStatus := .new
deriving DecidableEq, Repr

/-- A zero limit is disabled. -/
structure RiskLimits where
  maxOrderQuantity : Quantity := 0
  maxPositionQuantity : Quantity := 0
  maxNotional : Price := 0
deriving DecidableEq, Repr

inductive RiskResult where
  | accepted | rejected
deriving DecidableEq, Repr

inductive RiskReason where
  | none | maxOrderQuantity | maxPositionQuantity | maxNotional
deriving DecidableEq, Repr

structure RiskManager where
  limits : RiskLimits := {}
  reason : RiskReason := .none
deriving DecidableEq, Repr

namespace RiskManager

def positionDelta (request : OrderRequest) : Int :=
  let quantity := request.quantity.raw.toInt
  if request.side = .buy then quantity else -quantity

def setLimits (_ : RiskManager) (limits : RiskLimits) : RiskManager := { limits, reason := .none }

/-- The position is the one before the order; open orders are not looked at. -/
def checkOrder (manager : RiskManager) (request : OrderRequest) (position : Position) : RiskResult × RiskManager :=
  let limits := manager.limits
  let resultingPosition := position.currentQuantity.toInt + positionDelta request
  let notional := (request.price.raw.toInt * request.quantity.raw.toInt).tdiv ScaledValue.Scale.toInt
  if ¬ limits.maxOrderQuantity.isZero ∧ request.quantity > limits.maxOrderQuantity then
    (.rejected, { manager with reason := .maxOrderQuantity })
  else if ¬ limits.maxPositionQuantity.isZero ∧ absolute resultingPosition > limits.maxPositionQuantity.raw.toInt then
    (.rejected, { manager with reason := .maxPositionQuantity })
  else if ¬ limits.maxNotional.isZero ∧ absolute notional > limits.maxNotional.raw.toInt then
    (.rejected, { manager with reason := .maxNotional })
  else (.accepted, { manager with reason := .none })

end RiskManager

inductive OrderCreationError where
  | riskRejected | invalidRequest
deriving DecidableEq, Repr

abbrev Orders := SortedMap.Map OrderId Order (· < ·)

structure OrderManager where
  riskManager : RiskManager := {}
  position : Position := {}
  orders : Orders := .empty
  nextOrderId : OrderId := 1
  sent : List Order := []

namespace OrderManager

def createOrder (manager : OrderManager) (request : OrderRequest) : Except OrderCreationError OrderId × OrderManager :=
  if request.instrument = 0 ∨ request.quantity.isZero ∨ ¬ request.quantity.isPositive ∨ request.price.isZero ∨
      ¬ request.price.isPositive then
    (.error .invalidRequest, manager)
  else
    let (riskResult, riskManager) := manager.riskManager.checkOrder request manager.position
    let manager := { manager with riskManager }
    if riskResult ≠ .accepted then (.error .riskRejected, manager)
    else
      let orderId := manager.nextOrderId
      let manager := { manager with nextOrderId := manager.nextOrderId + 1 }
      let order : Order := {
        clientOrderId := orderId
        exchangeOrderId := 0
        instrument := request.instrument
        side := request.side
        type := request.type
        price := request.price
        quantity := request.quantity
        filledQuantity := 0
        status := .new }
      -- `emplace` fails only after the ids have wrapped around
      if (manager.orders.find? orderId).isSome then (.error .invalidRequest, manager)
      else
        (.ok orderId, { manager with
          orders := manager.orders.insertOrAssign orderId order
          sent := manager.sent ++ [order] })

def applyExecution (manager : OrderManager) (report : ExecutionReport) : Bool × OrderManager :=
  match manager.orders.find? report.clientOrderId with
  | none => (false, manager)
  | some order =>
    let order := { order with
      exchangeOrderId := report.exchangeOrderId
      status := report.status
      filledQuantity := report.filledQuantity }
    let position := if report.execType = .trade then
        manager.position.applyTrade report.side report.price report.quantity
      else manager.position
    (true, { manager with orders := manager.orders.insertOrAssign report.clientOrderId order, position })

end OrderManager
end FinanceTech.Trading
