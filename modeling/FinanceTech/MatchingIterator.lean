import FinanceTech.Library.Cells
import FinanceTech.MatchingEngine
import FinanceTech.MatchingSimple

/-! The iterator engine of `MatchingEngine.cpp`. A master list owns the orders,
the price levels are lists of iterators into it that live on the heap, and the
level maps hold pointers to them. Orders and lists are read and written through
their addresses, and a step that follows one to nothing fails. -/

namespace FinanceTech.Matching.Iterator
open Library
open Simple (PriceOrder PriceOrderList)
open Pointer (better crosses)

structure ReferencesBlock where
  orderIter : Address
  priceOrderIter : Address
  priceLevelOrderList : Address
deriving DecidableEq, Repr

/-- From a price to the `PriceOrderList*` of its level. -/
abbrev PriceLevelMap := SortedMap.Entries Price Address

abbrev Orders := SortedMap.Entries Address Order

/-- What `new PriceOrderList()` returned so far. The source deletes none of
them. -/
abbrev Lists := SortedMap.Entries Address PriceOrderList

abbrev OrderIdMap := Finmap fun _ : OrderID => ReferencesBlock

structure OrderMatchingEngine where
  orders : Orders := []
  orderByIDMap : OrderIdMap := ∅
  bidPriceLevelMap : PriceLevelMap := []
  askPriceLevelMap : PriceLevelMap := []
  lists : Lists := []
  trades : List Trade := []
  fresh : Address := 0

/-- What the matching loops change besides the level map. -/
structure MatchState where
  order : Order
  orders : Orders
  lists : Lists
  orderByIDMap : OrderIdMap
  trades : List Trade

namespace MatchState

def addTrade (state : MatchState) (matchedOrder : Order) : MatchState :=
  { state with trades := state.trades ++ [Trade.between state.order matchedOrder] }

/-- A filled order leaves its level and the index; the master list keeps it. -/
def matchOrderList (state : MatchState) : PriceOrderList → Option (MatchState × PriceOrderList)
  | [] => some (state, [])
  | node :: rest => do
    let matchedOrder ← state.orders.dlookup node.orderIter
    let state := state.addTrade matchedOrder
    if matchedOrder.quantity ≤ state.order.quantity then
      matchOrderList { state with
        order.quantity := state.order.quantity - matchedOrder.quantity
        orders := Cells.modify state.orders node.orderIter fun order => { order with quantity := 0 }
        orderByIDMap := state.orderByIDMap.erase matchedOrder.orderId } rest
    else
      return ({ state with
        order.quantity := 0
        orders := Cells.modify state.orders node.orderIter fun order =>
          { order with quantity := order.quantity - state.order.quantity } }, node :: rest)

/-- The loop over the opposite levels. An emptied level leaves the map. -/
def matchLevels (state : MatchState) : PriceLevelMap → Option (MatchState × PriceLevelMap)
  | [] => some (state, [])
  | ⟨price, address⟩ :: rest =>
    if 0 < state.order.quantity ∧ crosses state.order.side price state.order.price then do
      let list ← state.lists.dlookup address
      let (state, list) ← matchOrderList state list
      let state := { state with lists := Cells.modify state.lists address fun _ => list }
      if list.isEmpty then matchLevels state rest
      else
        let (state, rest) ← matchLevels state rest
        return (state, ⟨price, address⟩ :: rest)
    else some (state, ⟨price, address⟩ :: rest)

end MatchState

namespace OrderMatchingEngine

def levels (engine : OrderMatchingEngine) : OrderSide → PriceLevelMap
  | .buy => engine.bidPriceLevelMap
  | .sell => engine.askPriceLevelMap

def setLevels (engine : OrderMatchingEngine) (levels : PriceLevelMap) : OrderSide → OrderMatchingEngine
  | .buy => { engine with bidPriceLevelMap := levels }
  | .sell => { engine with askPriceLevelMap := levels }

/-- Match an incoming order against the other side. The order comes back with
its remaining quantity. -/
def matchOrder (engine : OrderMatchingEngine) (order : Order) : Option (Order × OrderMatchingEngine) := do
  let (state, levels) ← MatchState.matchLevels ⟨order, engine.orders, engine.lists, engine.orderByIDMap, engine.trades⟩
    (engine.levels order.side.opposite)
  return (state.order, { engine.setLevels levels order.side.opposite with
    orders := state.orders, lists := state.lists, orderByIDMap := state.orderByIDMap, trades := state.trades })

/-- The list stored under a price, allocated when it is missing. -/
def getOrderPriceList (engine : OrderMatchingEngine) (side : OrderSide) (price : Price) : OrderMatchingEngine × Address :=
  match (engine.levels side).dlookup price with
  | some list => (engine, list)
  | none =>
    ({ engine.setLevels (SortedMap.insert (better side) price engine.fresh (engine.levels side)) side with
      lists := engine.lists ++ [⟨engine.fresh, []⟩], fresh := engine.fresh + 1 }, engine.fresh)

/-- The source links the node of the master list before it looks the level up
and moves the order into it last. -/
def insertOrder (engine : OrderMatchingEngine) (order : Order) : OrderMatchingEngine :=
  let (engine, priceLevelOrderList) := engine.getOrderPriceList order.side order.price
  let orderIter := engine.fresh
  let priceOrderIter := engine.fresh + 1
  { engine with
    orders := engine.orders ++ [⟨orderIter, order⟩]
    lists := Cells.modify engine.lists priceLevelOrderList fun list => list ++ [⟨priceOrderIter, orderIter⟩]
    orderByIDMap := engine.orderByIDMap.insert order.orderId ⟨orderIter, priceOrderIter, priceLevelOrderList⟩
    fresh := engine.fresh + 2 }

/-- An order whose id is still indexed after matching is dropped. -/
def handleOrderNew (engine : OrderMatchingEngine) (order : Order) : Option OrderMatchingEngine := do
  let (order, engine) ← engine.matchOrder order
  if order.quantity = 0 then return engine
  else if order.orderId ∈ engine.orderByIDMap then return engine
  else return engine.insertOrder order

/-- `std::list::erase`: the iterator must belong to the list. -/
def eraseNode (list : PriceOrderList) (iter : Address) : Option PriceOrderList :=
  if list.any fun node => node.iter = iter then some (list.eraseP fun node => node.iter = iter) else none

/-- Remove an indexed order. Its fields are read after its node is gone; they
still hold what they held before. -/
def cancelOrder (engine : OrderMatchingEngine) (orderId : OrderID) (block : ReferencesBlock) : Option OrderMatchingEngine := do
  let order ← engine.orders.dlookup block.orderIter
  let list ← engine.lists.dlookup block.priceLevelOrderList
  let list ← eraseNode list block.priceOrderIter
  let engine := { engine with
    lists := Cells.modify engine.lists block.priceLevelOrderList fun _ => list
    orders := engine.orders.kerase block.orderIter
    orderByIDMap := engine.orderByIDMap.erase orderId }
  if list.isEmpty then
    return engine.setLevels ((engine.levels order.side).kerase order.price) order.side
  else
    return engine

def handleOrderCancel (engine : OrderMatchingEngine) (order : Order) : Option OrderMatchingEngine :=
  match engine.orderByIDMap.lookup order.orderId with
  | none => some engine
  | some block => do
    let resting ← engine.orders.dlookup block.orderIter
    if order.side = resting.side then engine.cancelOrder order.orderId block else return engine

def handleOrderAmend (engine : OrderMatchingEngine) (order : Order) : Option OrderMatchingEngine :=
  match engine.orderByIDMap.lookup order.orderId with
  | none => some engine
  | some block => do
    let orderOriginal ← engine.orders.dlookup block.orderIter
    if orderOriginal.side ≠ order.side then return engine
    else if orderOriginal.price ≠ order.price then
      let engine ← engine.cancelOrder order.orderId block
      engine.handleOrderNew order
    else return { engine with
      orders := Cells.modify engine.orders block.orderIter fun original => { original with quantity := order.quantity } }

/-- Actions other than the three handled ones are ignored. -/
def processOrder (engine : OrderMatchingEngine) (order : Order) : Option OrderMatchingEngine :=
  match order.action with
  | .new => engine.handleOrderNew order
  | .cancel => engine.handleOrderCancel order
  | .amend => engine.handleOrderAmend order
  | .recovery | .recoveryEnd => some engine

def processOrders (engine : OrderMatchingEngine) (orders : List Order) : Option OrderMatchingEngine :=
  orders.foldlM processOrder engine

/-- The order behind the first iterator of the first level. -/
def firstOrder (engine : OrderMatchingEngine) (levels : PriceLevelMap) : Option Order := do
  let entry ← levels.head?
  let list ← engine.lists.dlookup entry.2
  let node ← list.head?
  engine.orders.dlookup node.orderIter

def getBestBuyOrder (engine : OrderMatchingEngine) : Option Order := engine.firstOrder engine.bidPriceLevelMap

def getBestSellOrder (engine : OrderMatchingEngine) : Option Order := engine.firstOrder engine.askPriceLevelMap

def getOrdersCount (engine : OrderMatchingEngine) : Nat := engine.orderByIDMap.keys.card

def getBuyPriceLevelCount (engine : OrderMatchingEngine) : Nat := engine.bidPriceLevelMap.length

def getSellPriceLevelsCount (engine : OrderMatchingEngine) : Nat := engine.askPriceLevelMap.length

end OrderMatchingEngine
end FinanceTech.Matching.Iterator

namespace FinanceTech.Matching.Ex

/-- The engine of `MatchingEngineEx.cpp`. Its types and functions have the text
of those of `MatchingEngine_UnitTests`, so it is the pointer engine. -/
abbrev OrderMatchingEngine := Pointer.MatchingEngine

end FinanceTech.Matching.Ex
