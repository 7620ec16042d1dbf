import FinanceTech.Library.BoundedMap

/-! The book of price levels of the trading system, which takes the depth updates
of a feed. What it prints is left out, and so are the fields of an event that it
does not read. -/

namespace FinanceTech.TradingSystem
open Library.SortedMap

inductive EventType where
  | none
  | result
  | ticker
  | miniTicker
  | bookTicker
  | trade
  | aggTrade
  | markPrice
  | depthUpdate
deriving DecidableEq, Repr

structure PriceLevel (Price Quantity : Type) where
  price : Price
  quantity : Quantity
deriving DecidableEq, Repr

structure Depth (Price Quantity : Type) where
  bid : List (PriceLevel Price Quantity) := []
  ask : List (PriceLevel Price Quantity) := []
deriving DecidableEq, Repr

structure Event (Price Quantity : Type) where
  type : EventType := .none
  depth : Depth Price Quantity := {}
deriving DecidableEq, Repr

/-- The flat maps of the two sides, best price first. -/
structure PriceLevelBook (Price Quantity : Type) [LinearOrder Price] where
  buyOrders : Map Price Quantity (· > ·) := .empty
  sellOrders : Map Price Quantity (· < ·) := .empty

namespace PriceLevelBook

variable {Price Quantity : Type} [LinearOrder Price] [Zero Quantity] [DecidableEq Quantity]

/-- The body of the loop over the levels of one side. -/
def handleLevel {before : Price → Price → Prop} [IsStrictTotalOrder Price before] [DecidableRel before]
    (orders : Map Price Quantity before) (lvl : PriceLevel Price Quantity) : Map Price Quantity before :=
  if lvl.quantity = 0 then orders.erase lvl.price else orders.emplace lvl.price lvl.quantity

def handleDepthUpdate (book : PriceLevelBook Price Quantity) (depthUpdate : Depth Price Quantity) : PriceLevelBook Price Quantity where
  buyOrders := depthUpdate.bid.foldl handleLevel book.buyOrders
  sellOrders := depthUpdate.ask.foldl handleLevel book.sellOrders

def processEvent (book : PriceLevelBook Price Quantity) (event : Event Price Quantity) : PriceLevelBook Price Quantity :=
  match event.type with
  | .depthUpdate => book.handleDepthUpdate event.depth
  | _ => book

end PriceLevelBook
end FinanceTech.TradingSystem
