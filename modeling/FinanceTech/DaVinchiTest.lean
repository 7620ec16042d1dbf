import FinanceTech.Library.SortedMap
import FinanceTech.StringUtilities
import Mathlib.Logic.Function.Basic
import Mathlib.Order.Defs.LinearOrder

/-! A book whose orders are stored by price and found by id. The index holds
iterators into the price maps; what an iterator points to is read and written
through memory, and a step that follows one to nothing fails. -/

namespace FinanceTech.DaVinchiTest
open Library SortedMap Strings

inductive OrderSide where
  | buy
  | sell
deriving DecidableEq, Repr

inductive Operation where
  | insert
  | cancel
  | amend
deriving DecidableEq, Repr

structure Order (Price : Type) where
  timestamp : Text
  symbol : Text
  id : Text
  volume : UInt32
  price : Price
  operation : Operation
  side : OrderSide
deriving DecidableEq, Repr

/-- The number of the node it points to. -/
abbrev OrderIter := Nat

section Number

variable {Price : Type} [LinearOrder Price]

/-- A floating point number; none is the one that is not a number. Zero has no sign. -/
abbrev Number (Price : Type) := Option Price

/-- The order of numbers. Every comparison with what is not a number is false. -/
def less : Number Price → Number Price → Prop
  | some first, some second => first < second
  | _, _ => False

instance : DecidableRel (@less Price _)
  | some first, some second => inferInstanceAs (Decidable (first < second))
  | none, none => instDecidableFalse
  | none, some _ => instDecidableFalse
  | some _, none => instDecidableFalse

instance : IsTrans (Number Price) less where
  trans
    | some _, some _, some _, earlier, later => lt_trans earlier later

/-- The `!=` of numbers: what is not a number differs even from itself. -/
def differs : Number Price → Number Price → Bool
  | some first, some second => first ≠ second
  | _, _ => true

end Number

variable {Price : Type} [LinearOrder Price]

/-- From a price to the order at it. -/
abbrev OrdersList (Price : Type) [LinearOrder Price] := Map (Number Price) OrderIter less

structure SymbolOrders (Price : Type) [LinearOrder Price] where
  buyOrders : OrdersList Price := Map.empty
  sellOrders : OrdersList Price := Map.empty

namespace SymbolOrders

def getOrders (symbolOrders : SymbolOrders Price) : OrderSide → OrdersList Price
  | .buy => symbolOrders.buyOrders
  | .sell => symbolOrders.sellOrders

def setOrders (symbolOrders : SymbolOrders Price) (orders : OrdersList Price) : OrderSide → SymbolOrders Price
  | .buy => { symbolOrders with buyOrders := orders }
  | .sell => { symbolOrders with sellOrders := orders }

theorem getOrders_setOrders (symbolOrders : SymbolOrders Price) (orders : OrdersList Price) (side other : OrderSide) :
    (symbolOrders.setOrders orders side).getOrders other = if other = side then orders else symbolOrders.getOrders other := by
  cases side <;> cases other <;> rfl

end SymbolOrders

/-- Asking for a symbol puts empty maps there. `nodes` is what the nodes of the maps
hold, and none of the numbers from `unused` on is one of theirs. -/
structure Book (Price : Type) [LinearOrder Price] where
  orderBook : Text → SymbolOrders Price := fun _ => {}
  ordersById : Text → Option OrderIter := fun _ => none
  nodes : OrderIter → Option (Order (Number Price)) := fun _ => none
  unused : OrderIter := 0

namespace Book

variable (book : Book Price) (order : Order (Number Price))

/-- The orders on the side of the message, at its symbol. -/
def orders : OrdersList Price := (book.orderBook order.symbol).getOrders order.side

def setOrders (orders : OrdersList Price) : Book Price :=
  { book with orderBook := Function.update book.orderBook order.symbol ((book.orderBook order.symbol).setOrders orders order.side) }

/-- An unknown id is printed and the end of the index is followed all the same. -/
def cancel : Option (Book Price) := do
  let iter ← book.ordersById order.id
  let orders ← (book.orders order).eraseValue? iter
  return { book.setOrders order orders with
    ordersById := Function.update book.ordersById order.id none
    nodes := Function.update book.nodes iter none }

/-- A new price takes the order out of the map and the message into it, if its place is
free; the index gets the node that stands there then. -/
def amend : Option (Book Price) := do
  let iter ← book.ordersById order.id
  let held ← book.nodes iter
  if differs order.price held.price then
    let orders ← (book.orders order).eraseValue? iter
    let nodes := Function.update book.nodes iter none
    match orders.tryEmplace order.price book.unused with
    | .ok orders =>
      return { book.setOrders order orders with
        ordersById := Function.update book.ordersById order.id (some book.unused)
        nodes := Function.update nodes book.unused (some order)
        unused := book.unused + 1 }
    | .error other =>
      return { book.setOrders order orders with
        ordersById := Function.update book.ordersById order.id (some other)
        nodes := nodes }
  else
    return { book with nodes := Function.update book.nodes iter (some { held with volume := order.volume }) }

/-- An order at a price that is taken is printed and dropped. -/
def insert : Book Price :=
  match (book.orders order).tryEmplace order.price book.unused with
  | .ok orders =>
    { book.setOrders order orders with
      ordersById := Function.update book.ordersById order.id (some book.unused)
      nodes := Function.update book.nodes book.unused (some order)
      unused := book.unused + 1 }
  | .error _ => book

def processRawOrder2 : Option (Book Price) :=
  match order.operation with
  | .cancel => book.cancel order
  | .amend => book.amend order
  | .insert => some (book.insert order)

end Book

/-! ### Lines of a file -/

def semicolon : UInt8 := ';'.toUInt8

def newline : UInt8 := '\n'.toUInt8

def split (str : Text) : Option (List Text) := StringUtilities.piecesFrom substr str [semicolon] (str.length + 1) 0 []

def isDigit (symbol : UInt8) : Bool := '0'.toUInt8 ≤ symbol && symbol ≤ '9'.toUInt8

/-- `from_chars` for a `uint32_t`: the digits in front. It leaves the zero alone when
there are none and when their number does not fit. -/
def extractUInt32 (str : Text) : UInt32 :=
  let value := (str.takeWhile isDigit).foldl (fun value symbol => 10 * value + (symbol.toNat - '0'.toNat)) 0
  if value < 2 ^ 32 then UInt32.ofNat value else 0

/-- The enumeration takes any character; the first one of an empty text is an access that fails. -/
def getOperation (op : Text) : Option UInt8 := op.head?

/-- Any other character is an operation that is none of the three. -/
def Operation.ofChar (symbol : UInt8) : Option Operation :=
  if symbol = 'I'.toUInt8 then some .insert
  else if symbol = 'C'.toUInt8 then some .cancel
  else if symbol = 'A'.toUInt8 then some .amend
  else none

def buy : Text := ['B', 'U', 'Y'].map Char.toUInt8

def getSide (method : Text) : OrderSide := if buy = method then .buy else .sell

/-- The order that the parameters spell, with a function of the library for its price.
It is nothing for an operation that is none of the three. -/
def orderFrom {Price : Type} (toPrice : Text → Price) (params : List Text) : Option (Option (Order Price)) := do
  let timestamp ← params[0]?
  let symbol ← params[1]?
  let id ← params[2]?
  let volume ← params[5]?
  let price ← params[6]?
  let operation ← getOperation (← params[3]?)
  let method ← params[4]?
  return (Operation.ofChar operation).map fun operation =>
    { timestamp, symbol, id, volume := extractUInt32 volume, price := toPrice price, operation, side := getSide method }

def parseOrder {Price : Type} (fromChars : Text → Price) (rawOrder : Text) : Option (Option (Order Price)) := do
  orderFrom fromChars (← split rawOrder)

/-- The lines that `getline` takes from a file: what is behind the last end of a line
is one unless it is empty. -/
def readLines (file : Text) : List Text :=
  let lines := file.splitOn newline
  if lines.getLast? = some [] then lines.dropLast else lines

namespace Book

/-- An operation that is none of the three does nothing. -/
def processLine (fromChars : Text → Number Price) (book : Book Price) (rawOrder : Text) : Option (Book Price) := do
  match ← parseOrder fromChars rawOrder with
  | some order => book.processRawOrder2 order
  | none => return book

def readOrders (fromChars : Text → Number Price) (book : Book Price) (file : Text) : Option (Book Price) :=
  (readLines file).foldlM (processLine fromChars) book

end Book

end FinanceTech.DaVinchiTest
