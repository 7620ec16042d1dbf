import FinanceTech.OrderManager

/-! The order manager and what it asks of its execution gateway, in the order it
asks. The gateway does not call back. -/

namespace FinanceTech.Trading
open Library

/-- A call of the `IExecutionGateway`. -/
inductive GatewayCall where
  | send (order : Order)
  | cancel (orderId : OrderId)
deriving DecidableEq, Repr

/-- The order manager, the calls of its gateway, and the requests for which
`createOrder` returned an id. -/
structure OrderGateway where
  manager : OrderManager := {}
  calls : List GatewayCall := []
  accepted : List (OrderId × OrderRequest) := []

inductive GatewayOperation where
  | create (request : OrderRequest)
  | cancel (orderId : OrderId)
  | report (report : ExecutionReport)
deriving DecidableEq, Repr

namespace OrderGateway

/-- The constructor takes any risk manager and position. -/
def start (riskManager : RiskManager) (position : Position) : OrderGateway where
  manager := { riskManager, position }

/-- What the order manager has sent during the call is sent through the
gateway. -/
def createOrder (gateway : OrderGateway) (request : OrderRequest) : Except OrderCreationError OrderId × OrderGateway :=
  let (result, manager) := gateway.manager.createOrder request
  (result, {
    manager
    calls := gateway.calls ++ (manager.sent.drop gateway.manager.sent.length).map GatewayCall.send
    accepted := match result with
      | .ok orderId => gateway.accepted ++ [(orderId, request)]
      | .error _ => gateway.accepted })

def applyExecution (gateway : OrderGateway) (report : ExecutionReport) : Bool × OrderGateway :=
  let (applied, manager) := gateway.manager.applyExecution report
  (applied, { gateway with manager })

/-- A request to cancel an order that is stored, whatever its status. -/
def cancel (gateway : OrderGateway) (orderId : OrderId) : Bool × OrderGateway :=
  match gateway.manager.orders.find? orderId with
  | none => (false, gateway)
  | some _ => (true, { gateway with calls := gateway.calls ++ [.cancel orderId] })

def step (gateway : OrderGateway) : GatewayOperation → OrderGateway
  | .create request => (gateway.createOrder request).2
  | .cancel orderId => (gateway.cancel orderId).2
  | .report report => (gateway.applyExecution report).2

def run (gateway : OrderGateway) (operations : List GatewayOperation) : OrderGateway := operations.foldl step gateway

end OrderGateway
end FinanceTech.Trading
