import FinanceTech.Library.Cells
import FinanceTech.Library.MachineInteger
import FinanceTech.MatchingOrder
import Mathlib.Data.Finmap

/-! The iterator engine of `MatchingEngine_Simple`. A master list owns the
orders, the price levels hold iterators into it, and matching starts at
`lower_bound` of the incoming price. The levels are the elements of a `flat_map`,
which a new price moves, while an indexed order keeps a pointer to its level. -/

namespace FinanceTech.Matching.Simple
open Library

/-- A node of `PriceOrderList`: where it lives and which order it refers to. -/
structure PriceOrder where
  iter : Address
  orderIter : Address
deriving DecidableEq, Repr

abbrev PriceOrderList := List PriceOrder

abbrev PriceLevelMap := SortedMap.Entries Price PriceOrderList

/-- The vector in which a `flat_map` keeps its elements. A number that grows with every
allocation says which vector it is. -/
structure Storage where
  buffer : Nat := 0
  capacity : Nat := 0
deriving DecidableEq, Repr

/-- Room for one element more, in another vector when this one is full. How much room a
vector gets then is up to the library. -/
def Storage.reserve (grow : Nat → Nat) (storage : Storage) (size : Nat) : Storage :=
  if size < storage.capacity then storage else { buffer := storage.buffer + 1, capacity := grow storage.capacity }

/-- A `PriceOrderList*`: a place in the vector of a side. -/
structure PriceOrderListPtr where
  side : OrderSide
  buffer : Nat
  index : Nat
deriving DecidableEq, Repr

structure ReferencesBlock where
  orderIter : Address
  priceOrderIter : Address
  priceLevelOrderList : PriceOrderListPtr
deriving DecidableEq, Repr

structure OrderMatchingEngine where
  orders : SortedMap.Entries Address Order := []
  orderByIDMap : Finmap (fun _ : OrderID => ReferencesBlock) := ∅
  buyOrders : PriceLevelMap := []
  sellOrders : PriceLevelMap := []
  storage : OrderSide → Storage := fun _ => {}
  trades : List Trade := []
  fresh : Address := 0

/-- The comparator of a side's map: `std::less` for buy orders and
`std::greater` for sell orders. -/
def before : OrderSide → Price → Price → Prop
  | .buy => (· < ·)
  | .sell => (· > ·)

instance (side : OrderSide) : DecidableRel (before side) :=
  match side with
  | .buy => fun first second => inferInstanceAs (Decidable (first < second))
  | .sell => fun first second => inferInstanceAs (Decidable (second < first))

instance (side : OrderSide) : IsStrictTotalOrder Price (before side) :=
  match side with
  | .buy => inferInstanceAs (IsStrictTotalOrder UInt64 (· < ·))
  | .sell => inferInstanceAs (IsStrictTotalOrder UInt64 (· > ·))

/-- What the matching loops change besides the price levels. They erase from the index
and look at no reference in it. -/
structure MatchState (Block : Type) where
  order : Order
  orders : SortedMap.Entries Address Order
  orderByIDMap : Finmap fun _ : OrderID => Block
  trades : List Trade

namespace MatchState

variable {Block : Type}

def addTrade (state : MatchState Block) (matchedOrder : Order) : MatchState Block :=
  { state with trades := state.trades ++ [Trade.between state.order matchedOrder] }

/-- A filled order leaves its level and the index; the master list keeps it. -/
def matchOrderList (state : MatchState Block) : PriceOrderList → Option (MatchState Block × PriceOrderList)
  | [] => some (state, [])
  | node :: rest => do
    let matchedOrder ← state.orders.dlookup node.orderIter
    let state := state.addTrade matchedOrder
    if matchedOrder.quantity ≤ state.order.quantity then
      matchOrderList { state with
        order.quantity := state.order.quantity - matchedOrder.quantity
        orders := Cells.modify state.orders node.orderIter fun order => { order with quantity := 0 }
        orderByIDMap := state.orderByIDMap.erase matchedOrder.orderId } rest
    else
      return ({ state with
        order.quantity := 0
        orders := Cells.modify state.orders node.orderIter fun order =>
          { order with quantity := order.quantity - state.order.quantity } }, node :: rest)

/-- The loop from `lower_bound` to the end. An emptied level stays. -/
def matchLevels (state : MatchState Block) : PriceLevelMap → Option (MatchState Block × PriceLevelMap)
  | [] => some (state, [])
  | ⟨price, list⟩ :: rest =>
    if 0 < state.order.quantity then do
      let (state, list) ← matchOrderList state list
      let (state, rest) ← matchLevels state rest
      return (state, ⟨price, list⟩ :: rest)
    else some (state, ⟨price, list⟩ :: rest)

end MatchState

namespace OrderMatchingEngine

def levels (engine : OrderMatchingEngine) : OrderSide → PriceLevelMap
  | .buy => engine.buyOrders
  | .sell => engine.sellOrders

def setLevels (engine : OrderMatchingEngine) (levels : PriceLevelMap) : OrderSide → OrderMatchingEngine
  | .buy => { engine with buyOrders := levels }
  | .sell => { engine with sellOrders := levels }

/-- Match an incoming order against the other side. The order comes back with
its remaining quantity. -/
def matchOrder (engine : OrderMatchingEngine) (order : Order) : Option (Order × OrderMatchingEngine) := do
  let levels := engine.levels order.side.opposite
  let passed := levels.takeWhile fun entry => before order.side.opposite entry.1 order.price
  let (state, matched) ← MatchState.matchLevels ⟨order, engine.orders, engine.orderByIDMap, engine.trades⟩
    (SortedMap.lowerBound (before order.side.opposite) order.price levels)
  return (state.order, { engine.setLevels (passed ++ matched) order.side.opposite with
    orders := state.orders, orderByIDMap := state.orderByIDMap, trades := state.trades })

/-- `operator[]` of the level map: the list under a price, empty when missing. -/
def priceLevelOrderList (levels : PriceLevelMap) (price : Price) : PriceOrderList := (levels.dlookup price).getD []

/-- What `&orders[price]` is for a price that has a level: where `lower_bound` finds it. -/
def levelPtr (engine : OrderMatchingEngine) (side : OrderSide) (price : Price) : PriceOrderListPtr where
  side
  buffer := (engine.storage side).buffer
  index := ((engine.levels side).takeWhile fun entry => before side entry.1 price).length

/-- The level that a pointer leads to now. A vector that was left is freed. -/
def levelAt (engine : OrderMatchingEngine) (pointer : PriceOrderListPtr) : Option PriceOrderList :=
  if pointer.buffer = (engine.storage pointer.side).buffer then ((engine.levels pointer.side)[pointer.index]?).map Sigma.snd
  else none

/-- The storage after `operator[]` of the level map of a side, which makes room for a new
price only. -/
def reserveLevel (grow : Nat → Nat) (engine : OrderMatchingEngine) (side : OrderSide) (price : Price) : OrderSide → Storage :=
  if price ∈ (engine.levels side).keys then engine.storage
  else Function.update engine.storage side ((engine.storage side).reserve grow (engine.levels side).length)

def insertOrder (grow : Nat → Nat) (engine : OrderMatchingEngine) (order : Order) : OrderMatchingEngine :=
  let orderIter := engine.fresh
  let priceOrderIter := engine.fresh + 1
  let list := priceLevelOrderList (engine.levels order.side) order.price ++ [⟨priceOrderIter, orderIter⟩]
  let levels := SortedMap.insert (before order.side) order.price list (engine.levels order.side)
  let storage := engine.reserveLevel grow order.side order.price
  let engine := { engine.setLevels levels order.side with storage }
  { engine with
    orders := engine.orders ++ [⟨orderIter, order⟩]
    orderByIDMap := engine.orderByIDMap.insert order.orderId ⟨orderIter, priceOrderIter, engine.levelPtr order.side order.price⟩
    fresh := engine.fresh + 2 }

def handleOrderNew (grow : Nat → Nat) (engine : OrderMatchingEngine) (order : Order) : Option OrderMatchingEngine := do
  let (order, engine) ← engine.matchOrder order
  if order.quantity = 0 then return engine
  else if order.orderId ∈ engine.orderByIDMap then return engine
  else return engine.insertOrder grow order

/-- The side of the cancel request is not looked at. `list::erase` through the pointer
needs a list that is still there and has the node. -/
def handleOrderCancel (engine : OrderMatchingEngine) (order : Order) : Option OrderMatchingEngine :=
  match engine.orderByIDMap.lookup order.orderId with
  | none => some engine
  | some block => do
    let pointer := block.priceLevelOrderList
    let list ← engine.levelAt pointer
    if list.any fun node => node.iter = block.priceOrderIter then
      let list := list.eraseP fun node => node.iter = block.priceOrderIter
      return { engine.setLevels ((engine.levels pointer.side).modify pointer.index fun entry => ⟨entry.1, list⟩) pointer.side with
        orders := engine.orders.kerase block.orderIter
        orderByIDMap := engine.orderByIDMap.erase order.orderId }
    else none

def handleOrderAmend (grow : Nat → Nat) (engine : OrderMatchingEngine) (order : Order) : Option OrderMatchingEngine :=
  match engine.orderByIDMap.lookup order.orderId with
  | none => some engine
  | some block => do
    let orderOriginal ← engine.orders.dlookup block.orderIter
    if orderOriginal.side ≠ order.side then return engine
    else if orderOriginal.price ≠ order.price then
      let engine ← engine.handleOrderCancel order
      engine.handleOrderNew grow order
    else return { engine with
      orders := Cells.modify engine.orders block.orderIter fun original => { original with quantity := order.quantity } }

/-- Actions other than the three handled ones are ignored. -/
def processOrder (grow : Nat → Nat) (engine : OrderMatchingEngine) (order : Order) : Option OrderMatchingEngine :=
  match order.action with
  | .new => engine.handleOrderNew grow order
  | .cancel => engine.handleOrderCancel order
  | .amend => engine.handleOrderAmend grow order
  | .recovery | .recoveryEnd => some engine

def processOrders (grow : Nat → Nat) (engine : OrderMatchingEngine) (orders : List Order) : Option OrderMatchingEngine :=
  orders.foldlM (processOrder grow) engine

end OrderMatchingEngine
end FinanceTech.Matching.Simple
