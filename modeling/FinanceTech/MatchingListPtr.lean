import FinanceTech.MatchingIterator

/-! The engine of `MatchingEngine_PriceLvLPtr`. It matches as the engine of
`MatchingEngine_Simple` does, but its level maps hold pointers to lists on the
heap, and an indexed order keeps the pointer to the list of its level. -/

namespace FinanceTech.Matching.ListPtr
open Library
open Simple (PriceOrder PriceOrderList before)
open Iterator (ReferencesBlock PriceLevelMap Orders Lists OrderIdMap MatchState)

/-- Nodes and lists are numbered apart, so that a list allocated on the way does
not renumber the nodes. -/
structure OrderMatchingEngine where
  orders : Orders := []
  orderByIDMap : OrderIdMap := ∅
  buyOrders : PriceLevelMap := []
  sellOrders : PriceLevelMap := []
  lists : Lists := []
  trades : List Trade := []
  fresh : Address := 0
  freshList : Address := 0

/-- The loop from `lower_bound` to the end. The level map is not written. -/
def matchLevels (state : MatchState) : PriceLevelMap → Option MatchState
  | [] => some state
  | ⟨_, address⟩ :: rest =>
    if 0 < state.order.quantity then do
      let matchedOrderList ← state.lists.dlookup address
      let (state, list) ← state.matchOrderList matchedOrderList
      matchLevels { state with lists := Cells.modify state.lists address fun _ => list } rest
    else some state

namespace OrderMatchingEngine

def levels (engine : OrderMatchingEngine) : OrderSide → PriceLevelMap
  | .buy => engine.buyOrders
  | .sell => engine.sellOrders

def setLevels (engine : OrderMatchingEngine) (levels : PriceLevelMap) : OrderSide → OrderMatchingEngine
  | .buy => { engine with buyOrders := levels }
  | .sell => { engine with sellOrders := levels }

/-- Match an incoming order against the other side. The order comes back with
its remaining quantity. -/
def matchOrder (engine : OrderMatchingEngine) (order : Order) : Option (Order × OrderMatchingEngine) := do
  let state ← matchLevels ⟨order, engine.orders, engine.lists, engine.orderByIDMap, engine.trades⟩
    (SortedMap.lowerBound (before order.side.opposite) order.price (engine.levels order.side.opposite))
  return (state.order, { engine with
    orders := state.orders, lists := state.lists, orderByIDMap := state.orderByIDMap, trades := state.trades })

/-- The list stored under a price, allocated when the price is new. -/
def getOrderPriceList (engine : OrderMatchingEngine) (side : OrderSide) (price : Price) : OrderMatchingEngine × Address :=
  match (engine.levels side).dlookup price with
  | some list => (engine, list)
  | none =>
    ({ engine.setLevels (SortedMap.insert (before side) price engine.freshList (engine.levels side)) side with
      lists := engine.lists ++ [⟨engine.freshList, []⟩], freshList := engine.freshList + 1 }, engine.freshList)

def insertOrder (engine : OrderMatchingEngine) (order : Order) : OrderMatchingEngine :=
  let (engine, priceLevelOrderList) := engine.getOrderPriceList order.side order.price
  let orderIter := engine.fresh
  let priceOrderIter := engine.fresh + 1
  { engine with
    orders := engine.orders ++ [⟨orderIter, order⟩]
    lists := Cells.modify engine.lists priceLevelOrderList fun list => list ++ [⟨priceOrderIter, orderIter⟩]
    orderByIDMap := engine.orderByIDMap.insert order.orderId ⟨orderIter, priceOrderIter, priceLevelOrderList⟩
    fresh := engine.fresh + 2 }

def handleOrderNew (engine : OrderMatchingEngine) (order : Order) : Option OrderMatchingEngine := do
  let (order, engine) ← engine.matchOrder order
  if order.quantity = 0 then return engine
  else if order.orderId ∈ engine.orderByIDMap then return engine
  else return engine.insertOrder order

/-- The side of the cancel request is not looked at. -/
def handleOrderCancel (engine : OrderMatchingEngine) (order : Order) : Option OrderMatchingEngine :=
  match engine.orderByIDMap.lookup order.orderId with
  | none => some engine
  | some block => do
    let list ← engine.lists.dlookup block.priceLevelOrderList
    let list ← Iterator.OrderMatchingEngine.eraseNode list block.priceOrderIter
    return { engine with
      lists := Cells.modify engine.lists block.priceLevelOrderList fun _ => list
      orders := engine.orders.kerase block.orderIter
      orderByIDMap := engine.orderByIDMap.erase order.orderId }

def handleOrderAmend (engine : OrderMatchingEngine) (order : Order) : Option OrderMatchingEngine :=
  match engine.orderByIDMap.lookup order.orderId with
  | none => some engine
  | some block => do
    let orderOriginal ← engine.orders.dlookup block.orderIter
    if orderOriginal.side ≠ order.side then return engine
    else if orderOriginal.price ≠ order.price then
      let engine ← engine.handleOrderCancel order
      engine.handleOrderNew order
    else return { engine with
      orders := Cells.modify engine.orders block.orderIter fun original => { original with quantity := order.quantity } }

/-- Actions other than the three handled ones are ignored. -/
def processOrder (engine : OrderMatchingEngine) (order : Order) : Option OrderMatchingEngine :=
  match order.action with
  | .new => engine.handleOrderNew order
  | .cancel => engine.handleOrderCancel order
  | .amend => engine.handleOrderAmend order
  | .recovery | .recoveryEnd => some engine

def processOrders (engine : OrderMatchingEngine) (orders : List Order) : Option OrderMatchingEngine :=
  orders.foldlM processOrder engine

/-- The levels of a side as `info` walks them, each with the list behind its
pointer. -/
def listed (engine : OrderMatchingEngine) (side : OrderSide) : SortedMap.Entries Price (Option PriceOrderList) :=
  SortedMap.mapValues engine.lists.dlookup (engine.levels side)

/-- The test `info` makes of an indexed order: the order behind each of its two
iterators carries the id. -/
def consistent (engine : OrderMatchingEngine) (orderId : OrderID) (block : ReferencesBlock) : Bool :=
  let orderOne := engine.orders.dlookup block.orderIter
  let orderTwo : Option Order := do
    let list ← engine.lists.dlookup block.priceLevelOrderList
    let node ← list.find? fun node : PriceOrder => node.iter = block.priceOrderIter
    engine.orders.dlookup node.orderIter
  orderOne.any (fun order => order.orderId = orderId) && orderTwo.any (fun order => order.orderId = orderId)

end OrderMatchingEngine
end FinanceTech.Matching.ListPtr

namespace FinanceTech.Matching.OrderAsPtr

/-- The engine of `MatchingEngine_OrderAsPtr`. Its master list holds owning
pointers to orders, where that of `MatchingEngine_PriceLvLPtr` holds the orders;
the functions are the same otherwise, and those of
`MatchingEngine_OrderAsPtr_Alloc` are too. -/
abbrev OrderMatchingEngine := ListPtr.OrderMatchingEngine

end FinanceTech.Matching.OrderAsPtr
