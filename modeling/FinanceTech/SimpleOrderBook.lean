import FinanceTech.DaVinchiTest
import FinanceTech.Library.Slots

/-! The book of `DaVinchiTest_LinkedList.cpp`. It keeps its orders in lists and
is otherwise made as the book that keeps them by price. -/

namespace FinanceTech.TestAssignmentLocal
open Library Strings StringUtilities
open DaVinchiTest (OrderSide Operation Order OrderIter semicolon orderFrom readLines)

/-- The nodes of a list in order, and the size it has counted. -/
structure OrdersList where
  iterators : List OrderIter := []
  size : Nat := 0
deriving DecidableEq, Repr

namespace OrdersList

/-- `insert` at the end. -/
def insert (orders : OrdersList) (iter : OrderIter) : OrdersList where
  iterators := orders.iterators ++ [iter]
  size := orders.size + 1

/-- The iterator must belong to the list. -/
def erase (orders : OrdersList) (iter : OrderIter) : Option OrdersList :=
  if iter ∈ orders.iterators then some { iterators := orders.iterators.erase iter, size := orders.size - 1 } else none

end OrdersList

structure SymbolOrders where
  buyOrders : OrdersList := {}
  sellOrders : OrdersList := {}
deriving DecidableEq, Repr

namespace SymbolOrders

def getOrders (symbolOrders : SymbolOrders) : OrderSide → OrdersList
  | .buy => symbolOrders.buyOrders
  | .sell => symbolOrders.sellOrders

def setOrders (symbolOrders : SymbolOrders) (orders : OrdersList) : OrderSide → SymbolOrders
  | .buy => { symbolOrders with buyOrders := orders }
  | .sell => { symbolOrders with sellOrders := orders }

theorem getOrders_setOrders (symbolOrders : SymbolOrders) (orders : OrdersList) (side other : OrderSide) :
    (symbolOrders.setOrders orders side).getOrders other = if other = side then orders else symbolOrders.getOrders other := by
  cases side <;> cases other <;> rfl

end SymbolOrders

variable {Price : Type}

structure SimpleOrderBook (Price : Type) where
  orderBook : Text → SymbolOrders := fun _ => {}
  ordersById : Text → Option OrderIter := fun _ => none
  nodes : OrderIter → Option (Order Price) := fun _ => none
  unused : OrderIter := 0

namespace SimpleOrderBook

variable (book : SimpleOrderBook Price) (order : Order Price)

def orders : OrdersList := (book.orderBook order.symbol).getOrders order.side

def setOrders (orders : OrdersList) : SimpleOrderBook Price :=
  { book with orderBook := Function.update book.orderBook order.symbol ((book.orderBook order.symbol).setOrders orders order.side) }

def insert : SimpleOrderBook Price :=
  { book.setOrders order ((book.orders order).insert book.unused) with
    ordersById := Function.update book.ordersById order.id (some book.unused)
    nodes := Function.update book.nodes book.unused (some order)
    unused := book.unused + 1 }

/-- The list is that of the message, the node that of the order with its id. -/
def cancel (iter : OrderIter) : Option (SimpleOrderBook Price) := do
  let orders ← (book.orders order).erase iter
  return { book.setOrders order orders with
    ordersById := Function.update book.ordersById order.id none
    nodes := Function.update book.nodes iter none }

def amend (iter : OrderIter) : Option (SimpleOrderBook Price) := do
  let held ← book.nodes iter
  return { book with nodes := Function.update book.nodes iter (some { held with price := order.price, volume := order.volume }) }

/-- An id that is not there is an error that is printed. -/
def processOrder : Option (SimpleOrderBook Price) :=
  match order.operation with
  | .insert => some (book.insert order)
  | .cancel =>
    match book.ordersById order.id with
    | .some iter => book.cancel order iter
    | .none => some book
  | .amend =>
    match book.ordersById order.id with
    | .some iter => book.amend order iter
    | .none => some book

end SimpleOrderBook

/-! ### Lines of a file -/

/-- The turns of the loop of `splitOrder`. The array has no room behind its last part. -/
def splitOrderFrom (str : Text) : Nat → Nat → Nat → List Text → Option (List Text)
  | 0, _, _, _ => none
  | fuel + 1, prev, idx, parts =>
    let pos := find str [semicolon] prev
    if pos ≠ npos then do
      let parts ← Slots.store parts idx (← substr str prev (minus 64 pos prev))
      splitOrderFrom str fuel (plus 64 pos 1) (idx + 1) parts
    else do
      Slots.store parts idx (← substr str prev (minus 64 str.length prev))

def splitOrder (str : Text) : Option (List Text) := splitOrderFrom str (str.length + 1) 0 0 (List.replicate 7 [])

def parseOrder (strtof : Text → Price) (rawOrder : Text) : Option (Option (Order Price)) := do
  orderFrom strtof (← splitOrder rawOrder)

namespace SimpleOrderBook

/-- An operation that is none of the three does nothing. -/
def processLine (strtof : Text → Price) (book : SimpleOrderBook Price) (rawOrder : Text) : Option (SimpleOrderBook Price) := do
  match ← parseOrder strtof rawOrder with
  | some order => book.processOrder order
  | none => return book

def readAndProcessOrders (strtof : Text → Price) (book : SimpleOrderBook Price) (file : Text) : Option (SimpleOrderBook Price) :=
  (readLines file).foldlM (processLine strtof) book

/-! ### Reports -/

def compareByVolume (x y : Order Price) : Bool := decide (x.volume > y.volume)

/-- One turn of the second loop of `BiggestBuyOrders`: `make_heap`, and a new front for a
bigger order. -/
def offer (makeHeap : List (Order Price) → List (Order Price)) (topOrders : List (Order Price)) (order : Order Price) :
    Option (List (Order Price)) :=
  match makeHeap topOrders with
  | [] => none
  | front :: rest => if compareByVolume order front then some (order :: rest) else some (front :: rest)

/-- The orders that are printed. The end of the first three is as far from the front as
the size says, which has to be inside the list. -/
def biggestBuyOrders (makeHeap : List (Order Price) → List (Order Price)) (book : SimpleOrderBook Price) (symbol : Text) :
    Option (List (Order Price)) := do
  let buyOrders := (book.orderBook symbol).buyOrders
  let top := min buyOrders.size 3
  if top ≤ buyOrders.iterators.length then do
    let topOrders ← (buyOrders.iterators.take top).mapM book.nodes
    (← (buyOrders.iterators.drop top).mapM book.nodes).foldlM (offer makeHeap) topOrders
  else none

section Sell

variable [Zero Price] [LT Price] [DecidableLT Price]

/-- One turn of the loop of `BestSellAtTime`. -/
def betterSell (timeStr : Text) (bestSellPrice : Price × UInt32) (order : Order Price) : Price × UInt32 :=
  if timeStr.isPrefixOf order.timestamp && decide (order.price > bestSellPrice.1) then (order.price, order.volume) else bestSellPrice

/-- The price and the volume that are printed, if the volume is not zero. -/
def bestSellAtTime (book : SimpleOrderBook Price) (symbol timeStr : Text) : Option (Option (Price × UInt32)) := do
  let sellOrders ← (book.orderBook symbol).sellOrders.iterators.mapM book.nodes
  let bestSellPrice := sellOrders.foldl (betterSell timeStr) (0, 0)
  return if bestSellPrice.2 ≠ 0 then some bestSellPrice else none

end Sell

end SimpleOrderBook

end FinanceTech.TestAssignmentLocal
