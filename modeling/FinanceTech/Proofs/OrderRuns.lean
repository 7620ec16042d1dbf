import FinanceTech.Library.Runs
import FinanceTech.Proofs.OrderCreation

/-! Runs of the order manager, in which orders are created and reports arrive
in any order, and what one step of them does to the tracked orders. -/

namespace FinanceTech.Proofs.OrderRuns
open Library Trading OrderCreation

inductive Event where
  | create (request : OrderRequest)
  | report (report : ExecutionReport)
deriving DecidableEq, Repr

def step (manager : OrderManager) : Event → OrderManager
  | .create request => (manager.createOrder request).2
  | .report report => (manager.applyExecution report).2

def run (manager : OrderManager) (events : List Event) : OrderManager := events.foldl step manager

theorem run_append (manager : OrderManager) (first second : List Event) :
    run manager (first ++ second) = run (run manager first) second := List.foldl_append

/-- What a report makes of the order it names. -/
def reported (order : Order) (report : ExecutionReport) : Order := { order with
  exchangeOrderId := report.exchangeOrderId
  status := report.status
  filledQuantity := report.filledQuantity }

variable {manager : OrderManager} {report : ExecutionReport} {order : Order}

theorem applyExecution_unknown (unknown : manager.orders.find? report.clientOrderId = none) :
    manager.applyExecution report = (false, manager) := by
  simp only [OrderManager.applyExecution, unknown]

theorem applyExecution_known (found : manager.orders.find? report.clientOrderId = some order) :
    manager.applyExecution report = (true, { manager with
      orders := manager.orders.insertOrAssign report.clientOrderId (reported order report)
      position := if report.execType = .trade then manager.position.applyTrade report.side report.price report.quantity
        else manager.position }) := by
  simp only [OrderManager.applyExecution, found]
  rfl

theorem find?_reported (found : manager.orders.find? report.clientOrderId = some order) (id : OrderId) :
    (step manager (.report report)).orders.find? id =
      if id = report.clientOrderId then some (reported order report) else manager.orders.find? id := by
  simp only [step, applyExecution_known found]
  exact SortedMap.Map.find?_insertOrAssign _ _ _ _

/-- Creating an order leaves the orders there are, and adds at most one. -/
theorem find?_created (manager : OrderManager) (request : OrderRequest) :
    (step manager (.create request)).orders = manager.orders ∨
      ∃ order, Created manager request order (step manager (.create request)) := by
  obtain ⟨-, -, outcome⟩ := createOrder_cases manager request
  rcases outcome with ⟨-, -, same, -⟩ | ⟨order, -, created⟩
  · exact .inl same
  · exact .inr ⟨order, created⟩

theorem created_position (manager : OrderManager) (request : OrderRequest) :
    (step manager (.create request)).position = manager.position := (createOrder_cases manager request).1

/-- An order that is tracked stays tracked, and only a report that names it
changes it. -/
theorem tracked_step {id : OrderId} (tracked : manager.orders.find? id = some order) (event : Event) :
    (step manager event).orders.find? id = some order ∨
      ∃ report, event = .report report ∧ report.clientOrderId = id ∧
        (step manager event).orders.find? id = some (reported order report) := by
  cases event with
  | create request =>
    left
    rcases find?_created manager request with same | ⟨other, created⟩
    · rw [same]
      exact tracked
    · rw [created.orders, SortedMap.Map.find?_insertOrAssign]
      split
      next own =>
        rw [own, created.fresh] at tracked
        cases tracked
      next => exact tracked
  | report report =>
    cases found : manager.orders.find? report.clientOrderId with
    | none =>
      left
      simp only [step, applyExecution_unknown found]
      exact tracked
    | some known =>
      rw [find?_reported found]
      split
      next own =>
        rw [own, found] at tracked
        cases tracked
        exact .inr ⟨report, rfl, own.symm, rfl⟩
      next => exact .inl tracked

/-- A trade of some quantity never leaves a position as it was. -/
theorem applyTrade_moves {position : Position} {side : Side} {price : Price} {quantity : Quantity} (moves : quantity ≠ 0) :
    (position.applyTrade side price quantity).currentQuantity ≠ position.currentQuantity := by
  have raw : quantity.raw ≠ 0 := by
    intro zero
    apply moves
    cases quantity
    exact congrArg ScaledValue.mk zero
  rw [applyTrade_quantity]
  intro same
  apply raw
  cases side
  · simp only [if_true] at same
    grind
  · simp only [reduceCtorEq, if_false] at same
    grind

theorem applyTrade_zero (position : Position) (side : Side) (price : Price) : position.applyTrade side price 0 = position := by
  rw [Position.applyTrade, if_pos]
  exact (ScaledValue.isZero_iff _).mpr rfl

end FinanceTech.Proofs.OrderRuns
