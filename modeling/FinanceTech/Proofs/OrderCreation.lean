import FinanceTech.OrderManager
import Mathlib.Algebra.Order.Group.Unbundled.Abs
import Mathlib.Algebra.Order.Ring.Int

/-! What creating an order and applying a report can do, said once: every later
argument about the order manager reads these cases. -/

namespace FinanceTech.Proofs.OrderCreation
open Library Trading RiskManager

theorem absolute_eq (value : Int) : absolute value = |value| := by
  rw [absolute]
  split
  next negative => exact (abs_of_neg negative).symm
  next other => exact (abs_of_nonneg (not_lt.mp other)).symm

structure Passes (limits : RiskLimits) (position : Position) (request : OrderRequest) : Prop where
  orderQuantity : limits.maxOrderQuantity ≠ 0 → request.quantity.raw.toInt ≤ limits.maxOrderQuantity.raw.toInt
  positionQuantity : limits.maxPositionQuantity ≠ 0 →
    |position.currentQuantity.toInt + positionDelta request| ≤ limits.maxPositionQuantity.raw.toInt
  notional : limits.maxNotional ≠ 0 →
    |(request.price.raw.toInt * request.quantity.raw.toInt).tdiv ScaledValue.Scale.toInt| ≤ limits.maxNotional.raw.toInt

def QuantityAllowed (limits : RiskLimits) (request : OrderRequest) : Prop :=
  limits.maxOrderQuantity ≠ 0 → request.quantity.raw.toInt ≤ limits.maxOrderQuantity.raw.toInt

def PositionAllowed (limits : RiskLimits) (position : Position) (request : OrderRequest) : Prop :=
  limits.maxPositionQuantity ≠ 0 →
    |position.currentQuantity.toInt + positionDelta request| ≤ limits.maxPositionQuantity.raw.toInt

def NotionalAllowed (limits : RiskLimits) (request : OrderRequest) : Prop :=
  limits.maxNotional ≠ 0 →
    |(request.price.raw.toInt * request.quantity.raw.toInt).tdiv ScaledValue.Scale.toInt| ≤ limits.maxNotional.raw.toInt

instance (limits : RiskLimits) (request : OrderRequest) : Decidable (QuantityAllowed limits request) :=
  inferInstanceAs (Decidable (_ → _))

instance (limits : RiskLimits) (position : Position) (request : OrderRequest) : Decidable (PositionAllowed limits position request) :=
  inferInstanceAs (Decidable (_ → _))

instance (limits : RiskLimits) (request : OrderRequest) : Decidable (NotionalAllowed limits request) :=
  inferInstanceAs (Decidable (_ → _))

theorem checkOrder_eq (manager : RiskManager) (request : OrderRequest) (position : Position) :
    manager.checkOrder request position =
      if ¬ QuantityAllowed manager.limits request then (.rejected, { manager with reason := .maxOrderQuantity })
      else if ¬ PositionAllowed manager.limits position request then (.rejected, { manager with reason := .maxPositionQuantity })
      else if ¬ NotionalAllowed manager.limits request then (.rejected, { manager with reason := .maxNotional })
      else (.accepted, { manager with reason := .none }) := by
  have quantity : request.quantity > manager.limits.maxOrderQuantity ↔
      manager.limits.maxOrderQuantity.raw.toInt < request.quantity.raw.toInt := Int64.lt_iff_toInt_lt
  rw [checkOrder]
  simp only [ScaledValue.isZero_iff, absolute_eq, QuantityAllowed, PositionAllowed, NotionalAllowed, Classical.not_imp, not_le,
    quantity, gt_iff_lt, ne_eq]

private theorem checkOrder_limits (manager : RiskManager) (request : OrderRequest) (position : Position) :
    (manager.checkOrder request position).2.limits = manager.limits := by
  rw [checkOrder_eq]
  repeat' split
  all_goals rfl

theorem checkOrder_accepted_iff {manager : RiskManager} {request : OrderRequest} {position : Position} :
    (manager.checkOrder request position).1 = .accepted ↔ Passes manager.limits position request := by
  rw [checkOrder_eq]
  split
  next refused => exact ⟨fun accepted => (nomatch accepted), fun passes => absurd passes.orderQuantity refused⟩
  next small =>
    split
    next refused => exact ⟨fun accepted => (nomatch accepted), fun passes => absurd passes.positionQuantity refused⟩
    next within =>
      split
      next refused => exact ⟨fun accepted => (nomatch accepted), fun passes => absurd passes.notional refused⟩
      next cheap => exact ⟨fun _ => ⟨not_not.mp small, not_not.mp within, not_not.mp cheap⟩, fun _ => rfl⟩

/-- Only the orders that a request may not ask for are refused before the risk
check. -/
structure WellFormed (request : OrderRequest) : Prop where
  instrument : request.instrument ≠ 0
  quantity : 0 < request.quantity.raw.toInt
  price : 0 < request.price.raw.toInt

/-- An order that was created, stored and sent. -/
structure Created (manager : OrderManager) (request : OrderRequest) (order : Order) (next : OrderManager) : Prop where
  instrument : order.instrument = request.instrument
  side : order.side = request.side
  type : order.type = request.type
  price : order.price = request.price
  quantity : order.quantity = request.quantity
  filled : order.filledQuantity = 0
  status : order.status = .new
  wellFormed : WellFormed request
  passes : Passes manager.riskManager.limits manager.position request
  fresh : manager.orders.find? order.clientOrderId = none
  orders : next.orders = manager.orders.insertOrAssign order.clientOrderId order
  sent : next.sent = manager.sent ++ [order]

theorem createOrder_cases (manager : OrderManager) (request : OrderRequest) :
    (manager.createOrder request).2.position = manager.position ∧
    (manager.createOrder request).2.riskManager.limits = manager.riskManager.limits ∧
    ((∃ error, (manager.createOrder request).1 = .error error ∧ (manager.createOrder request).2.orders = manager.orders ∧
        (manager.createOrder request).2.sent = manager.sent) ∨
      ∃ order, (manager.createOrder request).1 = .ok order.clientOrderId ∧
        Created manager request order (manager.createOrder request).2) := by
  have limits := checkOrder_limits manager.riskManager request manager.position
  rw [OrderManager.createOrder]
  split
  next => exact ⟨rfl, rfl, .inl ⟨_, rfl, rfl, rfl⟩⟩
  next valid =>
    dsimp only
    split
    next => exact ⟨rfl, limits, .inl ⟨_, rfl, rfl, rfl⟩⟩
    next accepted =>
      split
      next => exact ⟨rfl, limits, .inl ⟨_, rfl, rfl, rfl⟩⟩
      next fresh =>
        refine ⟨rfl, limits, .inr ⟨_, rfl, rfl, rfl, rfl, rfl, rfl, rfl, rfl, ?_, ?_, ?_, rfl, rfl⟩⟩
        · simp only [ScaledValue.isPositive, gt_iff_lt, decide_eq_true_eq, not_or, not_not] at valid
          obtain ⟨instrument, -, quantity, -, price⟩ := valid
          exact ⟨instrument, Int64.lt_iff_toInt_lt.mp quantity, Int64.lt_iff_toInt_lt.mp price⟩
        · exact checkOrder_accepted_iff.mp (not_not.mp accepted)
        · exact Option.not_isSome_iff_eq_none.mp fresh

/-- A report changes the status of the order it names and, for a trade, the
position. -/
theorem applyExecution_cases (manager : OrderManager) (report : ExecutionReport) :
    (manager.orders.find? report.clientOrderId = none ∧ manager.applyExecution report = (false, manager)) ∨
      ∃ order reported, manager.orders.find? report.clientOrderId = some order ∧
        reported.side = order.side ∧ reported.quantity = order.quantity ∧
        (manager.applyExecution report).1 = true ∧
        (manager.applyExecution report).2.orders = manager.orders.insertOrAssign report.clientOrderId reported ∧
        (manager.applyExecution report).2.position = (if report.execType = .trade then
          manager.position.applyTrade report.side report.price report.quantity else manager.position) ∧
        (manager.applyExecution report).2.riskManager = manager.riskManager ∧
        (manager.applyExecution report).2.sent = manager.sent := by
  rw [OrderManager.applyExecution]
  cases found : manager.orders.find? report.clientOrderId with
  | none => exact .inl ⟨rfl, rfl⟩
  | some order =>
    let reported : Order := { order with
      exchangeOrderId := report.exchangeOrderId
      status := report.status
      filledQuantity := report.filledQuantity }
    exact .inr ⟨order, reported, rfl, rfl, rfl, rfl, rfl, rfl, rfl, rfl⟩

/-- A trade moves the quantity of the position by its own, in wrapping
arithmetic and whatever its kind. -/
theorem applyTrade_quantity (position : Position) (side : Side) (price : Price) (quantity : Quantity) :
    (position.applyTrade side price quantity).currentQuantity =
      position.currentQuantity + if side = .buy then quantity.raw else -quantity.raw := by
  rw [Position.applyTrade]
  split
  next zero =>
    rw [(ScaledValue.isZero_iff _).mp zero]
    cases side <;> simp
  next =>
    dsimp only
    generalize (if side = .buy then quantity.raw else -quantity.raw) = signedQuantity
    split
    next flat => rw [flat, Int64.zero_add]
    next =>
      split
      next => rfl
      next opposite =>
        split
        next => rfl
        next =>
          split
          next equal =>
            simp only [stdAbs, gt_iff_lt] at equal opposite
            grind
          next => rfl

end FinanceTech.Proofs.OrderCreation
