import FinanceTech.OrderManager

/-! The way of an execution report through the trading core: it is recorded,
applied to its order and to the position the risk checks use, and then to the
position its instrument has in the position manager. -/

namespace FinanceTech.Trading
open Library

abbrev Positions := SortedMap.Map InstrumentId Position (· < ·)

structure PositionManager where
  positions : Positions := .empty

namespace PositionManager

def applyExecution (manager : PositionManager) (report : ExecutionReport) : Bool × PositionManager :=
  if report.execType ≠ .trade ∨ report.quantity.isZero then (false, manager)
  else
    -- `try_emplace` finds the position of the instrument or makes a flat one
    let position := (manager.positions.find? report.instrument).getD { instrument := report.instrument }
    let position := position.applyTrade report.side report.price report.quantity
    (true, { manager with positions := manager.positions.insertOrAssign report.instrument position })

def find (manager : PositionManager) (instrument : InstrumentId) : Option Position := manager.positions.find? instrument

end PositionManager

/-- The recorder is the log of what was recorded. -/
structure ExecutionReportHandler where
  orderManager : OrderManager := {}
  positionManager : PositionManager := {}
  recorder : List ExecutionReport := []

def ExecutionReportHandler.onExecutionReport (handler : ExecutionReportHandler) (report : ExecutionReport) :
    Bool × ExecutionReportHandler :=
  let handler := { handler with recorder := handler.recorder ++ [report] }
  let (applied, orderManager) := handler.orderManager.applyExecution report
  let handler := { handler with orderManager }
  if ¬ applied then (false, handler)
  else
    let (changed, positionManager) := handler.positionManager.applyExecution report
    (changed, { handler with positionManager })

end FinanceTech.Trading
