import FinanceTech.MatchingSimple

/-! Books of lists of nodes, with nothing between an order and its level: an order is
taken out of the list that has its node, wherever that is. What the engines compute that
keep such lists, as long as their pointers to the lists are good. -/

namespace FinanceTech.Matching.Listed
open Library
open Simple (PriceOrderList PriceLevelMap MatchState before)
open Simple.OrderMatchingEngine (priceLevelOrderList)

structure ReferencesBlock where
  orderIter : Address
  priceOrderIter : Address
deriving DecidableEq, Repr

structure OrderMatchingEngine where
  orders : SortedMap.Entries Address Order := []
  orderByIDMap : Finmap (fun _ : OrderID => ReferencesBlock) := ∅
  buyOrders : PriceLevelMap := []
  sellOrders : PriceLevelMap := []
  trades : List Trade := []
  fresh : Address := 0

/-- A node leaves the list that it is linked in. -/
def unlink (iter : Address) (levels : PriceLevelMap) : PriceLevelMap :=
  levels.map fun entry => ⟨entry.1, entry.2.filter fun node => node.iter ≠ iter⟩

namespace OrderMatchingEngine

def levels (engine : OrderMatchingEngine) : OrderSide → PriceLevelMap
  | .buy => engine.buyOrders
  | .sell => engine.sellOrders

def setLevels (engine : OrderMatchingEngine) (levels : PriceLevelMap) : OrderSide → OrderMatchingEngine
  | .buy => { engine with buyOrders := levels }
  | .sell => { engine with sellOrders := levels }

def matchOrder (engine : OrderMatchingEngine) (order : Order) : Option (Order × OrderMatchingEngine) := do
  let levels := engine.levels order.side.opposite
  let passed := levels.takeWhile fun entry => before order.side.opposite entry.1 order.price
  let (state, matched) ← MatchState.matchLevels ⟨order, engine.orders, engine.orderByIDMap, engine.trades⟩
    (SortedMap.lowerBound (before order.side.opposite) order.price levels)
  return (state.order, { engine.setLevels (passed ++ matched) order.side.opposite with
    orders := state.orders, orderByIDMap := state.orderByIDMap, trades := state.trades })

def insertOrder (engine : OrderMatchingEngine) (order : Order) : OrderMatchingEngine :=
  let orderIter := engine.fresh
  let priceOrderIter := engine.fresh + 1
  let list := priceLevelOrderList (engine.levels order.side) order.price ++ [⟨priceOrderIter, orderIter⟩]
  { engine.setLevels (SortedMap.insert (before order.side) order.price list (engine.levels order.side)) order.side with
    orders := engine.orders ++ [⟨orderIter, order⟩]
    orderByIDMap := engine.orderByIDMap.insert order.orderId ⟨orderIter, priceOrderIter⟩
    fresh := engine.fresh + 2 }

def handleOrderNew (engine : OrderMatchingEngine) (order : Order) : Option OrderMatchingEngine := do
  let (order, engine) ← engine.matchOrder order
  if order.quantity = 0 then return engine
  else if order.orderId ∈ engine.orderByIDMap then return engine
  else return engine.insertOrder order

def handleOrderCancel (engine : OrderMatchingEngine) (order : Order) : OrderMatchingEngine :=
  match engine.orderByIDMap.lookup order.orderId with
  | none => engine
  | some block => { engine with
    buyOrders := unlink block.priceOrderIter engine.buyOrders
    sellOrders := unlink block.priceOrderIter engine.sellOrders
    orders := engine.orders.kerase block.orderIter
    orderByIDMap := engine.orderByIDMap.erase order.orderId }

def handleOrderAmend (engine : OrderMatchingEngine) (order : Order) : Option OrderMatchingEngine :=
  match engine.orderByIDMap.lookup order.orderId with
  | none => some engine
  | some block => do
    let orderOriginal ← engine.orders.dlookup block.orderIter
    if orderOriginal.side ≠ order.side then return engine
    else if orderOriginal.price ≠ order.price then (engine.handleOrderCancel order).handleOrderNew order
    else return { engine with
      orders := Cells.modify engine.orders block.orderIter fun original => { original with quantity := order.quantity } }

def processOrder (engine : OrderMatchingEngine) (order : Order) : Option OrderMatchingEngine :=
  match order.action with
  | .new => engine.handleOrderNew order
  | .cancel => some (engine.handleOrderCancel order)
  | .amend => engine.handleOrderAmend order
  | .recovery | .recoveryEnd => some engine

def processOrders (engine : OrderMatchingEngine) (orders : List Order) : Option OrderMatchingEngine :=
  orders.foldlM processOrder engine

end OrderMatchingEngine
end FinanceTech.Matching.Listed
