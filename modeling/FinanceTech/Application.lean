import FinanceTech.OrderBook
import FinanceTech.OrderManager

/-! The trading pipeline as the application wires it: the book builder publishes
to the market event handler, which records the event, asks the strategy and lets
the executor create an order. -/

namespace FinanceTech.Trading
open Library

inductive Signal where
  | none | buy | sell
deriving DecidableEq, Repr

structure ImbalanceStrategy where
  thresholdNumerator : Int64 := 7
  thresholdDenominator : Int64 := 10
deriving DecidableEq, Repr

def ImbalanceStrategy.evaluate (strategy : ImbalanceStrategy) (event : MarketEvent) : Signal :=
  let bidQuantity := event.bestBidQuantity.raw.toInt
  let askQuantity := event.bestAskQuantity.raw.toInt
  let totalQuantity := bidQuantity + askQuantity
  if totalQuantity ≤ 0 then .none
  else
    let difference := bidQuantity - askQuantity
    let rhs := totalQuantity * strategy.thresholdNumerator.toInt
    if difference > 0 then
      if difference * strategy.thresholdDenominator.toInt ≥ rhs then .buy else .none
    else if difference < 0 then
      if -difference * strategy.thresholdDenominator.toInt ≥ rhs then .sell else .none
    else .none

structure StrategyExecutor where
  orderQuantity : Quantity
deriving DecidableEq, Repr

/-- The order manager after a signal, with the id of the order if one was
created. -/
def StrategyExecutor.execute (executor : StrategyExecutor) (orderManager : OrderManager) (signal : Signal) (event : MarketEvent) :
    Except OrderCreationError (Option OrderId) × OrderManager :=
  if signal = .none then (.ok none, orderManager)
  else
    let request : OrderRequest := {
      instrument := event.instrument
      side := if signal = .buy then .buy else .sell
      type := .limit
      price := if signal = .buy then event.bestAsk else event.bestBid
      quantity := executor.orderQuantity }
    let (result, orderManager) := orderManager.createOrder request
    (result.map some, orderManager)

structure MarketEventHandler where
  strategy : ImbalanceStrategy
  executor : StrategyExecutor
deriving DecidableEq, Repr

structure Application where
  bookBuilder : BookBuilder
  marketEventHandler : MarketEventHandler
  orderBook : OrderBook := {}
  orderManager : OrderManager
  /-- The market events of the trade recorder. -/
  marketEvents : List MarketEvent := []

inductive ApplicationEvent where
  | snapshot (sequence : SequenceNumber) (bids asks : Levels) (exchangeTimestamp receiveTimestamp : Timestamp)
  | update (update : BookUpdate) (receiveTimestamp : Timestamp)
  | report (report : ExecutionReport)

namespace Application

/-- The wiring of the constructor, for any instrument, strategy, order quantity
and limits. -/
def construct (instrument : InstrumentId) (strategy : ImbalanceStrategy) (orderQuantity : Quantity) (limits : RiskLimits) :
    Application where
  bookBuilder := { instrument }
  marketEventHandler := { strategy, executor := { orderQuantity } }
  orderManager := { position := { instrument }, riskManager := ({} : RiskManager).setLimits limits }

/-- The values of the constructor and of `configureRisk`. -/
def configured : Application :=
  construct 1 {} ⟨100000000⟩ {
    maxOrderQuantity := ⟨100000000⟩
    maxPositionQuantity := ⟨500000000⟩
    maxNotional := ⟨100000000000000⟩ }

def onMarketEvent (application : Application) (event : MarketEvent) : Application :=
  let handler := application.marketEventHandler
  let signal := handler.strategy.evaluate event
  { application with
    marketEvents := application.marketEvents ++ [event]
    orderManager := (handler.executor.execute application.orderManager signal event).2 }

def step (application : Application) : ApplicationEvent → Application
  | .snapshot sequence bids asks exchangeTimestamp receiveTimestamp =>
    let (orderBook, event) := application.bookBuilder.applySnapshot application.orderBook sequence bids asks
      exchangeTimestamp receiveTimestamp
    { application with orderBook }.onMarketEvent event
  | .update update receiveTimestamp =>
    let (orderBook, event) := application.bookBuilder.onBookUpdate application.orderBook update receiveTimestamp
    match event with
    | none => { application with orderBook }
    | some event => { application with orderBook }.onMarketEvent event
  | .report report => { application with orderManager := (application.orderManager.applyExecution report).2 }

def run (application : Application) (events : List ApplicationEvent) : Application := events.foldl step application

end Application
end FinanceTech.Trading
