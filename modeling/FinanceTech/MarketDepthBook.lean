import FinanceTech.Library.Slots
import Mathlib.Algebra.Ring.Nat
import Mathlib.Order.Lattice

/-! The flat map of `MarketDepthBook`: a sorted array of fixed capacity in which
`_size` nodes are live and the slots behind them keep what they held before. An
access outside the array has no result. -/

namespace FinanceTech.MarketDepth
open Library

inductive SortOrder where
  | ascending
  | descending
deriving DecidableEq, Repr

structure Node (K V : Type) where
  key : K
  value : V
deriving DecidableEq, Repr

/-- Arithmetic of `size_type`. -/
def uint32 (value : Nat) : Nat := value % 2 ^ 32

structure FlatMap (K V : Type) (ordering : SortOrder) where
  size : Nat
  capacity : Nat
  data : List (Node K V)
deriving DecidableEq, Repr

namespace FlatMap

variable {K V : Type} {ordering : SortOrder}

/-- The array comes value-initialised, so every slot has the zero key. -/
def new [Zero K] [Zero V] (capacity : Nat) : FlatMap K V ordering := ⟨0, capacity, List.replicate capacity ⟨0, 0⟩⟩

def empty (map : FlatMap K V ordering) : Bool := map.size == 0

def front (map : FlatMap K V ordering) : Option (Node K V) := map.data[0]?

def back (map : FlatMap K V ordering) : Option (Node K V) := map.data[uint32 (map.size + (2 ^ 32 - 1))]?

variable [LinearOrder K]

def compare (ordering : SortOrder) (a b : K) : Bool :=
  match ordering with
  | .descending => decide (a ≥ b)
  | .ascending => decide (a ≤ b)

def findInsertIndex (map : FlatMap K V ordering) (key : K) : Option Nat :=
  Slots.search (fun left right => uint32 (left + right) / 2) (fun node => compare ordering key node.key) map.data
    (map.size + 1) 0 map.size

/-- Whether the key comes after every live one. -/
def isBehind (map : FlatMap K V ordering) (key : K) : Option Bool :=
  if 0 < map.size then map.back.map fun last => !compare ordering key last.key else some false

/-- Whether the key lies outside the live range. -/
def isOutside (map : FlatMap K V ordering) (key : K) : Option Bool :=
  if 0 < map.size then
    map.front.bind fun first => if !compare ordering first.key key then some true else map.isBehind key
  else some false

/-- The returned pointer is the index of a slot, or nothing for `nullptr`. -/
def push (map : FlatMap K V ordering) (key : K) (value : V) : Option (FlatMap K V ordering × Option Nat) := do
  let behind ← map.isBehind key
  if behind then
    if map.size = map.capacity then some (map, none)
    else do
      let data ← Slots.store map.data map.size ⟨key, value⟩
      some ({ map with size := uint32 (map.size + 1), data }, some map.size)
  else do
    let idxInsert ← map.findInsertIndex key
    if map.capacity = idxInsert then some (map, some idxInsert)
    else do
      let found ← map.data[idxInsert]?
      if key = found.key then some (map, some idxInsert)
      else do
        let size := if map.capacity = map.size then map.size else uint32 (map.size + 1)
        let data ← Slots.shiftUp idxInsert (uint32 (size + (2 ^ 32 - 1))) map.data
        let data ← Slots.store data idxInsert ⟨key, value⟩
        some ({ map with size, data }, some idxInsert)

def erase (map : FlatMap K V ordering) (key : K) : Option (FlatMap K V ordering × Bool) := do
  let outside ← map.isOutside key
  if outside then some (map, false)
  else do
    let idx ← map.findInsertIndex key
    let found ← map.data[idx]?
    if key ≠ found.key then some (map, false)
    else do
      let data ← Slots.shiftDown (map.size - (idx + 1)) (idx + 1) map.data
      some ({ map with size := uint32 (map.size + (2 ^ 32 - 1)), data }, true)

/-- A write of the value a returned pointer leads to. -/
def assign (map : FlatMap K V ordering) (index : Nat) (value : V) : Option (FlatMap K V ordering) := do
  let node ← map.data[index]?
  let data ← Slots.store map.data index { node with value }
  some { map with data }

end FlatMap

/-! ### The depth book -/

inductive Side where
  | buy
  | sell
deriving DecidableEq, Repr

structure DepthUpdate (K V : Type) where
  price : K
  quantity : V
  side : Side
deriving DecidableEq, Repr

def maxDepth : Nat := 1000

structure MarketDepthBook (K V : Type) where
  asks : FlatMap K V .ascending
  bids : FlatMap K V .descending
deriving DecidableEq, Repr

namespace MarketDepthBook

variable {K V : Type}

def new [Zero K] [Zero V] : MarketDepthBook K V := ⟨.new maxDepth, .new maxDepth⟩

/-- The outer result is missing when `front` is outside the array. -/
def getBestPrice {ordering : SortOrder} (priceMap : FlatMap K V ordering) : Option (Option (K × V)) :=
  if priceMap.empty then some none
  else do
    let node ← priceMap.front
    some (some (node.key, node.value))

def getBestBid (book : MarketDepthBook K V) : Option (Option (K × V)) := getBestPrice book.bids

def getBestAsk (book : MarketDepthBook K V) : Option (Option (K × V)) := getBestPrice book.asks

variable [LinearOrder K] [Zero V] [DecidableEq V]

def handlePriceUpdate {ordering : SortOrder} (priceMap : FlatMap K V ordering) (price : K) (quantity : V) :
    Option (FlatMap K V ordering) :=
  if 0 = quantity then (priceMap.erase price).map Prod.fst
  else do
    let (priceMap, result) ← priceMap.push price quantity
    match result with
    | none => some priceMap
    | some index => priceMap.assign index quantity

def buyUpdate (book : MarketDepthBook K V) (price : K) (quantity : V) : Option (MarketDepthBook K V) := do
  let bids ← handlePriceUpdate book.bids price quantity
  some { book with bids }

def askUpdate (book : MarketDepthBook K V) (price : K) (quantity : V) : Option (MarketDepthBook K V) := do
  let asks ← handlePriceUpdate book.asks price quantity
  some { book with asks }

def handleUpdate (book : MarketDepthBook K V) (depthUpdate : DepthUpdate K V) : Option (MarketDepthBook K V) :=
  match depthUpdate.side with
  | .buy => book.buyUpdate depthUpdate.price depthUpdate.quantity
  | .sell => book.askUpdate depthUpdate.price depthUpdate.quantity

def handleEvents (book : MarketDepthBook K V) (events : List (DepthUpdate K V)) : Option (MarketDepthBook K V) :=
  events.foldlM handleUpdate book

end MarketDepthBook
end FinanceTech.MarketDepth
