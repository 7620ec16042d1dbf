import FinanceTech.Library.MachineInteger
import FinanceTech.MatchingOrder
import Mathlib.Data.List.Sort

/-! Price-time priority without any engine: a side of the book is the list of
its orders in the order they are served. This is the purpose the matching
engines share, stated on its own; nothing here is translated from the source. -/

namespace FinanceTech.PriceTime
open Matching

/-- Both sides, best price first and in order of arrival inside one price. -/
structure Book where
  bids : List Order
  asks : List Order
deriving DecidableEq, Repr

def Book.side (book : Book) : OrderSide → List Order
  | .buy => book.bids
  | .sell => book.asks

def Book.withSide (book : Book) (orders : List Order) : OrderSide → Book
  | .buy => { book with bids := orders }
  | .sell => { book with asks := orders }

structure Execution where
  buy : OrderInfo
  sell : OrderInfo
  quantity : Quantity
deriving DecidableEq, Repr

/-- Whether an incoming order of this side and price trades with a resting one. -/
def crossing : OrderSide → Price → Order → Bool
  | .sell, price, resting => price ≤ resting.price
  | .buy, price, resting => resting.price ≤ price

/-- Whether the first price is served before the second on this side. -/
def earlier : OrderSide → Order → Order → Prop
  | .buy, first, second => first.price > second.price
  | .sell, first, second => first.price < second.price

instance (side : OrderSide) : DecidableRel (earlier side) :=
  match side with
  | .buy => fun first second => inferInstanceAs (Decidable (second.price < first.price))
  | .sell => fun first second => inferInstanceAs (Decidable (first.price < second.price))

structure Filling where
  fills : List (Order × Quantity) := []
  kept : List Order := []
  left : Quantity

/-- Fill every crossing order in turn by what both still want, keeping an order
unless it is filled completely. -/
def fill (side : OrderSide) (price : Price) : Quantity → List Order → Filling
  | quantity, [] => { left := quantity }
  | quantity, resting :: rest =>
    if crossing side price resting then
      let traded := min resting.quantity quantity
      let filling := fill side price (quantity - traded) rest
      { fills := (resting, traded) :: filling.fills
        kept := if traded = resting.quantity then filling.kept
          else { resting with quantity := resting.quantity - traded } :: filling.kept
        left := filling.left }
    else
      let filling := fill side price quantity rest
      { filling with kept := resting :: filling.kept }

def execution (taker : Order) (fill : Order × Quantity) : Execution :=
  match taker.side with
  | .sell => { buy := Trade.addOrder fill.1, sell := Trade.addOrder taker, quantity := fill.2 }
  | .buy => { buy := Trade.addOrder taker, sell := Trade.addOrder fill.1, quantity := fill.2 }

def executions (taker : Order) (fills : List (Order × Quantity)) : List Execution :=
  (fills.filter fun fill => fill.2 ≠ 0).map (execution taker)

structure Outcome where
  executions : List Execution
  book : Book
  residual : Quantity
deriving DecidableEq, Repr

/-- Match an incoming order against the other side and rest what is left behind
the orders of its own side that are served no later. -/
def submit (book : Book) (order : Order) : Outcome :=
  let filling := fill order.side order.price order.quantity (book.side order.side.opposite)
  let matched := book.withSide filling.kept order.side.opposite
  { executions := executions order filling.fills
    book := if filling.left = 0 then matched
      else matched.withSide (List.orderedInsert (earlier order.side) { order with quantity := filling.left }
        (matched.side order.side)) order.side
    residual := filling.left }

/-- The ids of the resting orders. -/
def Book.ids (book : Book) : List OrderID := (book.bids ++ book.asks).map Order.orderId

/-- Serve a new order of any id. One whose id still rests after matching is not
stored. -/
def accept (book : Book) (order : Order) : List Execution × Book :=
  let filling := fill order.side order.price order.quantity (book.side order.side.opposite)
  let matched := book.withSide filling.kept order.side.opposite
  (executions order filling.fills,
    if filling.left = 0 ∨ order.orderId ∈ matched.ids then matched
    else matched.withSide (List.orderedInsert (earlier order.side) { order with quantity := filling.left }
      (matched.side order.side)) order.side)

/-- Take the order of this id off the order's own side. -/
def withdraw (book : Book) (order : Order) : Book :=
  book.withSide ((book.side order.side).filter fun resting => resting.orderId ≠ order.orderId) order.side

/-- Give the resting order of this id the order's quantity. -/
def requantify (book : Book) (order : Order) : Book :=
  book.withSide ((book.side order.side).map fun resting =>
    if resting.orderId = order.orderId then { resting with quantity := order.quantity } else resting) order.side

/-- Give a resting order the price and quantity of the order. A new price costs
it its place in the queue, a new quantity alone does not. -/
def amend (book : Book) (order : Order) : List Execution × Book :=
  match (book.side order.side).find? fun resting => resting.orderId = order.orderId with
  | none => ([], book)
  | some resting =>
    if resting.price = order.price then ([], requantify book order) else accept (withdraw book order) order

/-- What an order of any action does. -/
def process (book : Book) (order : Order) : List Execution × Book :=
  match order.action with
  | .new => accept book order
  | .cancel => ([], withdraw book order)
  | .amend => amend book order
  | .recovery | .recoveryEnd => ([], book)

/-- A whole sequence of orders, with all its executions. -/
def serve (book : Book) : List Order → List Execution × Book
  | [] => ([], book)
  | order :: rest =>
    let (executions, after) := process book order
    let (more, final) := serve after rest
    (executions ++ more, final)

/-- An execution with an order of this id on one of its sides. -/
def Execution.Involves (execution : Execution) (id : OrderID) : Prop := execution.buy.id = id ∨ execution.sell.id = id

/-- A recorded trade, read as an execution. -/
def Execution.ofTrade (trade : Trade) : Execution :=
  { buy := trade.buyOrderInfo, sell := trade.sellOrderInfo, quantity := trade.quantity.toUInt64 }

/-- The trades of a log that moved something. -/
def executed (trades : List Trade) : List Execution :=
  (trades.filter fun trade => trade.quantity ≠ 0).map Execution.ofTrade

end FinanceTech.PriceTime
