import FinanceTech.Library.Slots
import Mathlib.Algebra.Ring.Nat

/-! One side of a depth book as an array of levels, best price first, of which
the first `size` are live. An access outside the array has no result. The levels
take 64 bytes each, so no sum of two indices overflows `size_t`; `int32_t` does
not have all of them. -/

namespace FinanceTech.FlatLevelMap
open Library

structure PriceLevel (Price Quantity : Type) where
  price : Price
  qty : Quantity
deriving DecidableEq, Repr

/-- The template parameter `MaxLevels` is the length of the array. -/
structure FlatSide (Price Quantity : Type) (isBid : Bool) where
  lvls : List (PriceLevel Price Quantity)
  size : Nat := 0
deriving DecidableEq, Repr

/-- The conversion to `int32_t`. -/
def int32 (index : Nat) : Int := Int.bmod index (2 ^ 32)

namespace FlatSide

variable {Price Quantity : Type} {isBid : Bool}

def new [Zero Price] [Zero Quantity] (maxLevels : Nat) : FlatSide Price Quantity isBid := { lvls := List.replicate maxLevels ⟨0, 0⟩ }

/-- The live levels. -/
def levels (side : FlatSide Price Quantity isBid) : List (PriceLevel Price Quantity) := side.lvls.take side.size

/-- The level that the pointer leads to, or nothing for `nullptr`. -/
def best (side : FlatSide Price Quantity isBid) : Option (PriceLevel Price Quantity) :=
  if side.size ≠ 0 then side.lvls[0]? else none

variable [LT Price] [DecidableLT Price] [BEq Price]

def better (isBid : Bool) (a b : Price) : Bool := if isBid then decide (a > b) else decide (a < b)

def findPrice (side : FlatSide Price Quantity isBid) (price : Price) : Option Int :=
  (Slots.find (fun lvl => lvl.price == price) (fun lvl => better isBid price lvl.price) side.lvls (side.size + 1) 0 side.size).map
    fun found => found.elim (-1) int32

def findInsertPos (side : FlatSide Price Quantity isBid) (price : Price) : Option Nat :=
  Slots.search Slots.middle (fun lvl => better isBid price lvl.price) side.lvls (side.size + 1) 0 side.size

variable [BEq Quantity] [Zero Quantity]

def update (side : FlatSide Price Quantity isBid) (price : Price) (qty : Quantity) : Option (FlatSide Price Quantity isBid) := do
  let idx ← side.findPrice price
  if 0 ≤ idx then
    let idx := idx.toNat
    if qty == 0 then
      let lvls ← Slots.shiftDown (side.size - (idx + 1)) (idx + 1) side.lvls
      some { lvls, size := side.size - 1 }
    else
      let lvl ← side.lvls[idx]?
      let lvls ← Slots.store side.lvls idx { lvl with qty }
      some { side with lvls }
  else if qty == 0 then some side
  else
    let pos ← side.findInsertPos price
    let lvls ← Slots.shiftUp pos side.size side.lvls
    let lvls ← Slots.store lvls pos ⟨price, qty⟩
    some { lvls, size := side.size + 1 }

end FlatSide

/-- The mean of the two best prices is a floating point number and is left out. -/
structure DepthBook (Price Quantity : Type) where
  bids : FlatSide Price Quantity true
  asks : FlatSide Price Quantity false
deriving DecidableEq, Repr

namespace DepthBook

variable {Price Quantity : Type}

def new [Zero Price] [Zero Quantity] (maxLevels : Nat) : DepthBook Price Quantity := ⟨.new maxLevels, .new maxLevels⟩

/-- The price in the first slot of a side, and zero for an empty one. -/
def bestPrice [Zero Price] {isBid : Bool} (side : FlatSide Price Quantity isBid) : Option Price :=
  if side.size ≠ 0 then side.lvls[0]?.map PriceLevel.price else some 0

def bestBid [Zero Price] (book : DepthBook Price Quantity) : Option Price := bestPrice book.bids

def bestAsk [Zero Price] (book : DepthBook Price Quantity) : Option Price := bestPrice book.asks

end DepthBook
end FinanceTech.FlatLevelMap
