import FinanceTech.Library.MachineInteger
import FinanceTech.Library.SortedMap

/-! The depth book engine of `TradingSystem_Experimental`. One thread takes depth
events from a queue. Updates wait in a buffer until the snapshot has come, and
go straight to the book from then on. -/

namespace FinanceTech.DepthEngine
open Library

abbrev Price := Int64

abbrev Quantity := Int64

inductive EventType where
  | depthSnapshot
  | depthUpdate
deriving DecidableEq, Repr

structure PriceLevel where
  price : Price := 0
  quantity : Quantity := 0
deriving DecidableEq, Repr

/-- The engine reads neither the symbol nor the other two ids. -/
structure DepthEvent where
  type : EventType := .depthSnapshot
  bids : List PriceLevel := []
  akss : List PriceLevel := []
  lastUpdateId : UInt64 := 0
deriving DecidableEq, Repr

inductive Side where
  | buy
  | sell
deriving DecidableEq, Repr

inductive DepthBookStatus where
  | ready
  | noReady
deriving DecidableEq, Repr

abbrev LevelMap (before : Price → Price → Prop) := SortedMap.Map Price Quantity before

structure MarketDepthBook where
  bidPriceLevelMap : LevelMap (· > ·) := .empty
  askPriceLevelMap : LevelMap (· < ·) := .empty

namespace MarketDepthBook

/-- `emplace`, and an assignment through its iterator when the price is there. -/
def addLevel {before : Price → Price → Prop} [IsStrictTotalOrder Price before] [DecidableRel before]
    (priceLevel : PriceLevel) (levelMap : LevelMap before) : LevelMap before :=
  levelMap.insertOrAssign priceLevel.price priceLevel.quantity

def removeLevel {before : Price → Price → Prop} (priceLevel : PriceLevel) (levelMap : LevelMap before) : LevelMap before :=
  levelMap.erase priceLevel.price

def addBidPrice (book : MarketDepthBook) (priceLevel : PriceLevel) : MarketDepthBook :=
  { book with bidPriceLevelMap := addLevel priceLevel book.bidPriceLevelMap }

def addAskPrice (book : MarketDepthBook) (priceLevel : PriceLevel) : MarketDepthBook :=
  { book with askPriceLevelMap := addLevel priceLevel book.askPriceLevelMap }

def removeBidPrice (book : MarketDepthBook) (priceLevel : PriceLevel) : MarketDepthBook :=
  { book with bidPriceLevelMap := removeLevel priceLevel book.bidPriceLevelMap }

def removeAskPrice (book : MarketDepthBook) (priceLevel : PriceLevel) : MarketDepthBook :=
  { book with askPriceLevelMap := removeLevel priceLevel book.askPriceLevelMap }

def applySnapshot (book : MarketDepthBook) (snapshot : DepthEvent) : MarketDepthBook :=
  snapshot.akss.foldl addAskPrice (snapshot.bids.foldl addBidPrice book)

/-- What an update does with a level of either side: zero removes the price. -/
def updateLevel (add remove : MarketDepthBook → PriceLevel → MarketDepthBook) (book : MarketDepthBook) (level : PriceLevel) :
    MarketDepthBook :=
  if level.quantity ≠ 0 then add book level else remove book level

def handleDepthUpdate (book : MarketDepthBook) (snapshot : DepthEvent) : MarketDepthBook :=
  snapshot.akss.foldl (updateLevel addAskPrice removeAskPrice)
    (snapshot.bids.foldl (updateLevel addBidPrice removeBidPrice) book)

end MarketDepthBook

/-- A line the engine prints about its book. -/
structure Quote where
  bid : Price
  ask : Price
  price : Price
  spread : Price
deriving DecidableEq, Repr

structure Engine where
  status : DepthBookStatus := .noReady
  depthBook : MarketDepthBook := {}
  depthEvents : List DepthEvent := []
  printed : List Quote := []

namespace Engine

/-- A quote needs both sides of the book. -/
def quote (book : MarketDepthBook) : Option Quote := do
  let bid ← book.bidPriceLevelMap.first?
  let ask ← book.askPriceLevelMap.first?
  let spread := ask.1 - bid.1
  some ⟨bid.1, ask.1, bid.1 + spread / 2, spread⟩

/-- One turn of the loop of `handleEvents`, for the event it popped. -/
def handleEvent (engine : Engine) (event : DepthEvent) : Engine :=
  if event.type = .depthUpdate then
    if engine.status = .ready then
      let depthBook := engine.depthBook.handleDepthUpdate event
      { engine with
        depthBook
        printed := engine.printed ++ (quote depthBook).toList }
    else { engine with depthEvents := engine.depthEvents ++ [event] }
  else if event.type = .depthSnapshot ∧ engine.status = .noReady then
    let newer := engine.depthEvents.filter fun bufferedUpdateEven => bufferedUpdateEven.lastUpdateId > event.lastUpdateId
    { engine with
      depthBook := newer.foldl .handleDepthUpdate (engine.depthBook.applySnapshot event)
      depthEvents := []
      status := .ready }
  else engine

def handleEvents (engine : Engine) (events : List DepthEvent) : Engine := events.foldl handleEvent engine

end Engine
end FinanceTech.DepthEngine
