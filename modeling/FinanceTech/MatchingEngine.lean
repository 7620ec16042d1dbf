import FinanceTech.Library.MachineInteger
import FinanceTech.Library.SortedMap
import FinanceTech.MatchingOrder
import Mathlib.Data.Finmap

/-! The pointer engine of `MatchingEngine_UnitTests`. Its three structures hold
pointers to each other, so every order, list node and price level carries the
address it lives at, and a step that follows a pointer fails when nothing lives
there. Ownership follows the source: a level map owns its levels, a level owns
its list nodes, and a node owns its order. -/

namespace FinanceTech.Matching.Pointer
open Library

/-- A node of `std::list<OrderPtr>`: where the node lives (its iterator), where
the owned order lives, and the order itself. -/
structure Node where
  iter : Address
  pointer : Address
  order : Order
deriving DecidableEq, Repr

structure PriceLevel where
  address : Address
  orders : List Node := []
  quantity : UInt32 := 0
deriving DecidableEq, Repr

structure ReferencesBlock where
  order : Address
  iterPriceLevelOrder : Address
  priceLevel : Address
deriving DecidableEq, Repr

abbrev PriceLevelMap := SortedMap.Entries Price PriceLevel

abbrev OrderIdMap := Finmap fun _ : OrderID => ReferencesBlock

/-- `fresh` is the allocator: every address from it on is unused. -/
structure MatchingEngine where
  orderByIDMap : OrderIdMap := ∅
  bidPriceLevelMap : PriceLevelMap := []
  askPriceLevelMap : PriceLevelMap := []
  trades : List Trade := []
  fresh : Address := 0

/-- The comparator of a side's level map: bids descend and asks ascend. -/
def better : OrderSide → Price → Price → Prop
  | .buy => (· > ·)
  | .sell => (· < ·)

instance (side : OrderSide) : DecidableRel (better side) :=
  match side with
  | .buy => fun first second => inferInstanceAs (Decidable (second < first))
  | .sell => fun first second => inferInstanceAs (Decidable (first < second))

instance (side : OrderSide) : IsStrictTotalOrder Price (better side) :=
  match side with
  | .buy => inferInstanceAs (IsStrictTotalOrder UInt64 (· > ·))
  | .sell => inferInstanceAs (IsStrictTotalOrder UInt64 (· < ·))

/-- Whether an incoming order of this side and price trades with an opposite
level: the `Comparator` of `matchOrder`. -/
def crosses : OrderSide → (level price : Price) → Bool
  | .sell, level, price => level ≥ price
  | .buy, level, price => level ≤ price

/-- What the matching loops change besides the price levels. -/
structure MatchState where
  order : Order
  orderByIDMap : OrderIdMap
  trades : List Trade

namespace MatchState

def addTrade (state : MatchState) (matchedOrder : Order) : MatchState :=
  { state with trades := state.trades ++ [Trade.between state.order matchedOrder] }

/-- The loop over one level. It keeps going at quantity zero until it meets an
order it cannot fill, so that order is recorded with a trade of zero. -/
def matchOrderList (state : MatchState) : List Node → MatchState × List Node
  | [] => (state, [])
  | node :: rest =>
    let state := state.addTrade node.order
    if node.order.quantity ≤ state.order.quantity then
      matchOrderList { state with
        order.quantity := state.order.quantity - node.order.quantity
        orderByIDMap := state.orderByIDMap.erase node.order.orderId } rest
    else
      ({ state with order.quantity := 0 },
        { node with order.quantity := node.order.quantity - state.order.quantity } :: rest)

/-- The loop over the opposite levels. Erasing the best level leaves the
iterator of the vector behind `flat_map` on the next one. -/
def matchLevels (state : MatchState) : PriceLevelMap → MatchState × PriceLevelMap
  | [] => (state, [])
  | ⟨price, level⟩ :: rest =>
    if 0 < state.order.quantity ∧ crosses state.order.side price state.order.price then
      let (state, orders) := matchOrderList state level.orders
      if orders.isEmpty then matchLevels state rest
      else
        let (state, rest) := matchLevels state rest
        (state, ⟨price, { level with orders }⟩ :: rest)
    else (state, ⟨price, level⟩ :: rest)

end MatchState

namespace PriceLevelMap

def nodes (levels : PriceLevelMap) : List Node := levels.flatMap fun entry => entry.2.orders

/-- Write through a `PriceLevel*`. -/
def modify (levels : PriceLevelMap) (address : Address) (change : PriceLevel → PriceLevel) : PriceLevelMap :=
  levels.map fun entry => if entry.2.address = address then ⟨entry.1, change entry.2⟩ else entry

/-- Write through an `Order*`. -/
def modifyOrder (levels : PriceLevelMap) (address : Address) (change : Order → Order) : PriceLevelMap :=
  levels.map fun entry => ⟨entry.1, { entry.2 with orders := entry.2.orders.map fun node =>
    if node.pointer = address then { node with order := change node.order } else node }⟩

end PriceLevelMap

namespace MatchingEngine

def levels (engine : MatchingEngine) : OrderSide → PriceLevelMap
  | .buy => engine.bidPriceLevelMap
  | .sell => engine.askPriceLevelMap

def setLevels (engine : MatchingEngine) (levels : PriceLevelMap) : OrderSide → MatchingEngine
  | .buy => { engine with bidPriceLevelMap := levels }
  | .sell => { engine with askPriceLevelMap := levels }

/-- Read through an `Order*`. -/
def order? (engine : MatchingEngine) (address : Address) : Option Order :=
  ((PriceLevelMap.nodes (engine.bidPriceLevelMap ++ engine.askPriceLevelMap)).find? fun node =>
    node.pointer = address).map Node.order

/-- Read through a `PriceLevel*`. -/
def level? (engine : MatchingEngine) (address : Address) : Option PriceLevel :=
  ((engine.bidPriceLevelMap ++ engine.askPriceLevelMap).find? fun entry => entry.2.address = address).map (·.2)

def modifyLevel (engine : MatchingEngine) (address : Address) (change : PriceLevel → PriceLevel) : MatchingEngine :=
  { engine with
    bidPriceLevelMap := PriceLevelMap.modify engine.bidPriceLevelMap address change
    askPriceLevelMap := PriceLevelMap.modify engine.askPriceLevelMap address change }

def modifyOrder (engine : MatchingEngine) (address : Address) (change : Order → Order) : MatchingEngine :=
  { engine with
    bidPriceLevelMap := PriceLevelMap.modifyOrder engine.bidPriceLevelMap address change
    askPriceLevelMap := PriceLevelMap.modifyOrder engine.askPriceLevelMap address change }

/-- Match an incoming order against the other side. The order comes back with
its remaining quantity. -/
def matchOrder (engine : MatchingEngine) (order : Order) : Order × MatchingEngine :=
  let (state, levels) := MatchState.matchLevels ⟨order, engine.orderByIDMap, engine.trades⟩
    (engine.levels order.side.opposite)
  (state.order, { engine.setLevels levels order.side.opposite with
    orderByIDMap := state.orderByIDMap, trades := state.trades })

/-- The level stored under a price, created when it is missing. -/
def getOrderPriceList (engine : MatchingEngine) (side : OrderSide) (price : Price) : MatchingEngine × Address :=
  match (engine.levels side).dlookup price with
  | some level => (engine, level.address)
  | none =>
    ({ engine.setLevels (SortedMap.insert (better side) price { address := engine.fresh } (engine.levels side)) side with
      fresh := engine.fresh + 1 }, engine.fresh)

/-- Allocate the list node of an order the caller allocated, append it to the
level and index the three addresses. -/
def insertOrder (engine : MatchingEngine) (order : Order) : MatchingEngine :=
  let (engine, priceLevel) := engine.getOrderPriceList order.side order.price
  let pointer := engine.fresh
  let iter := engine.fresh + 1
  let engine := engine.modifyLevel priceLevel fun level => { level with
    quantity := (level.quantity.toUInt64 + order.quantity).toUInt32
    orders := level.orders ++ [⟨iter, pointer, order⟩] }
  { engine with
    orderByIDMap := engine.orderByIDMap.insert order.orderId ⟨pointer, iter, priceLevel⟩
    fresh := engine.fresh + 2 }

/-- An order whose id is still indexed after matching is dropped: `emplace`
does not replace the entry. -/
def handleOrderNew (engine : MatchingEngine) (order : Order) : MatchingEngine :=
  let (order, engine) := engine.matchOrder order
  if order.quantity = 0 then engine
  else if order.orderId ∈ engine.orderByIDMap then engine
  else engine.insertOrder order

/-- `std::list::erase`: the iterator must belong to the list. -/
def eraseNode (orders : List Node) (iter : Address) : Option (List Node) :=
  if orders.any fun node => node.iter = iter then some (orders.eraseP fun node => node.iter = iter) else none

/-- Remove an indexed order. The order's fields are read after its node is gone;
they still hold what they held before. -/
def cancelOrder (engine : MatchingEngine) (orderId : OrderID) (block : ReferencesBlock) : Option MatchingEngine := do
  let order ← engine.order? block.order
  let level ← engine.level? block.priceLevel
  let orders ← eraseNode level.orders block.iterPriceLevelOrder
  let engine := engine.modifyLevel block.priceLevel fun level => { level with
    orders, quantity := (level.quantity.toUInt64 - order.quantity).toUInt32 }
  let engine := { engine with orderByIDMap := engine.orderByIDMap.erase orderId }
  if orders.isEmpty then
    return engine.setLevels ((engine.levels order.side).kerase order.price) order.side
  else
    return engine

def handleOrderCancel (engine : MatchingEngine) (order : Order) : Option MatchingEngine :=
  match engine.orderByIDMap.lookup order.orderId with
  | none => some engine
  | some block => do
    let resting ← engine.order? block.order
    if order.side = resting.side then engine.cancelOrder order.orderId block else return engine

def handleOrderAmend (engine : MatchingEngine) (order : Order) : Option MatchingEngine :=
  match engine.orderByIDMap.lookup order.orderId with
  | none => some engine
  | some block => do
    let orderOriginal ← engine.order? block.order
    if orderOriginal.side ≠ order.side then return engine
    else if orderOriginal.price ≠ order.price then
      let engine ← engine.cancelOrder order.orderId block
      return engine.handleOrderNew order
    else
      let _ ← engine.level? block.priceLevel
      let engine := engine.modifyLevel block.priceLevel fun level => { level with
        quantity := ((level.quantity.toUInt64 - orderOriginal.quantity).toUInt32.toUInt64 + order.quantity).toUInt32 }
      return engine.modifyOrder block.order fun original => { original with quantity := order.quantity }

/-- Actions other than the three handled ones are ignored. -/
def processOrder (engine : MatchingEngine) (order : Order) : Option MatchingEngine :=
  match order.action with
  | .new => some (engine.handleOrderNew order)
  | .cancel => engine.handleOrderCancel order
  | .amend => engine.handleOrderAmend order
  | .recovery | .recoveryEnd => some engine

/-- Process a sequence of orders. -/
def processOrders (engine : MatchingEngine) (orders : List Order) : Option MatchingEngine :=
  orders.foldlM processOrder engine

def getBestBuyOrder (engine : MatchingEngine) : Option Order :=
  engine.bidPriceLevelMap.head?.bind fun entry => entry.2.orders.head?.map Node.order

def getBestSellOrder (engine : MatchingEngine) : Option Order :=
  engine.askPriceLevelMap.head?.bind fun entry => entry.2.orders.head?.map Node.order

def getOrdersCount (engine : MatchingEngine) : Nat := engine.orderByIDMap.keys.card

def getBuyPriceLevelCount (engine : MatchingEngine) : Nat := engine.bidPriceLevelMap.length

def getSellPriceLevelsCount (engine : MatchingEngine) : Nat := engine.askPriceLevelMap.length

end MatchingEngine
end FinanceTech.Matching.Pointer
