import Mathlib.Data.Finmap
import Mathlib.Data.UInt

/-! The price ladder of `PriceLevelStorage_2`: one level for every tick between
two bounds, orders that hold their own links, an index by id, and the levels in
two directions. Reading through a pointer that leads nowhere has no result. -/

namespace FinanceTech.PriceLevelStorage

abbrev Price := UInt64
abbrev Volume := UInt64
abbrev OrderId := UInt64

/-- An `Order*` that is not null. -/
abbrev Address := Nat

/-- A `PriceLevel*` that is not null. Every such pointer leads into `levels`,
which never moves, so it is a place there. -/
abbrev LevelAddress := Nat

inductive OrderSide where
  | buy | sell
deriving DecidableEq, Repr

structure IntrusiveLink (T : Type) where
  prev : Option T := none
  next : Option T := none
deriving DecidableEq, Repr

structure Order extends IntrusiveLink Address where
  orderId : OrderId := 0
  priceTick : Price := 0
  volume : Volume := 0
  side : OrderSide := .buy
  level : Option LevelAddress := none
deriving DecidableEq, Repr

/-- The orders that exist, wherever they were allocated. -/
abbrev Memory := Finmap fun _ : Address => Order

namespace Memory

/-- Write through a pointer. -/
def modify (memory : Memory) (address : Address) (change : Order → Order) : Option Memory := do
  let order ← memory.lookup address
  return memory.insert address (change order)

/-- `if (pointer) pointer->.. = ..; else end = ..;`, where `end` is the head or
the tail of the level. -/
def relink (memory : Memory) (pointer : Option Address) (change : Order → Order) (kept replaced : Option Address) :
    Option (Option Address × Memory) :=
  match pointer with
  | some address => (memory.modify address change).map (kept, ·)
  | none => some (replaced, memory)

end Memory

structure PriceLevel where
  priceTick : Price := 0
  totalVolume : Volume := 0
  head : Option Address := none
  tail : Option Address := none
deriving DecidableEq, Repr

namespace PriceLevel

/-- `self` is where the level itself lives. -/
def addOrder (level : PriceLevel) (self : LevelAddress) (memory : Memory) (order : Address) : Option (PriceLevel × Memory) := do
  let memory ← memory.modify order fun order => { order with level := some self, prev := level.tail, next := none }
  let (head, memory) ← memory.relink level.tail (fun tail => { tail with next := some order }) level.head (some order)
  let added ← memory.lookup order
  return ({ level with head, tail := some order, totalVolume := level.totalVolume + added.volume }, memory)

def removeOrder (level : PriceLevel) (memory : Memory) (order : Address) : Option (PriceLevel × Memory) := do
  let removed ← memory.lookup order
  let (head, memory) ← memory.relink removed.prev (fun prev => { prev with next := removed.next }) level.head removed.next
  let removed ← memory.lookup order
  let (tail, memory) ← memory.relink removed.next (fun next => { next with prev := removed.prev }) level.tail removed.prev
  let removed ← memory.lookup order
  let memory ← memory.modify order fun order => { order with level := none, prev := none, next := none }
  return ({ level with head, tail, totalVolume := level.totalVolume - removed.volume }, memory)

/-- The loop of `hasOrdersOfSide`. A chain that does not end runs out of fuel. -/
def anyOfSide (memory : Memory) (side : OrderSide) : Nat → Option Address → Option Bool
  | _, none => some false
  | 0, some _ => none
  | fuel + 1, some current => do
    let order ← memory.lookup current
    if order.side = side then return true
    anyOfSide memory side fuel order.next

/-- A chain that ends has no more orders than exist. -/
def hasOrdersOfSide (level : PriceLevel) (memory : Memory) (side : OrderSide) : Option Bool :=
  anyOfSide memory side memory.keys.card level.head

/-- The loop of `getVolumeBySide`. -/
def volumeOfSide (memory : Memory) (side : OrderSide) : Nat → Option Address → Volume → Option Volume
  | _, none, volume => some volume
  | 0, some _, _ => none
  | fuel + 1, some current, volume => do
    let order ← memory.lookup current
    volumeOfSide memory side fuel order.next (if order.side = side then volume + order.volume else volume)

def getVolumeBySide (level : PriceLevel) (memory : Memory) (side : OrderSide) : Option Volume :=
  volumeOfSide memory side memory.keys.card level.head 0

end PriceLevel

structure PriceLadder where
  minPriceTick : Price
  maxPriceTick : Price
  numLevels : UInt64
  levels : List PriceLevel
  bidLevels : List LevelAddress
  askLevels : List LevelAddress
  orderIndex : Finmap fun _ : OrderId => Address

/-- `for (Price price = first; price <= last; ++price)` -/
def ascending {S : Type} (last : Price) (body : S → Price → Option S) : Nat → Price → S → Option S
  | 0, _, _ => none
  | fuel + 1, price, state =>
    if price ≤ last then do ascending last body fuel (price + 1) (← body state price) else some state

/-- `for (Price price = first; price >= last; --price)` -/
def descending {S : Type} (last : Price) (body : S → Price → Option S) : Nat → Price → S → Option S
  | 0, _, _ => none
  | fuel + 1, price, state =>
    if price ≥ last then do descending last body fuel (price - 1) (← body state price) else some state

/-- `&levels[index]` -/
def levelAt (levels : List PriceLevel) (index : UInt64) : Option LevelAddress :=
  if index.toNat < levels.length then some index.toNat else none

namespace PriceLadder

/-- Every vector is taken to find the room it reserves. The loops get one turn
more than there are levels, the turn that ends them. -/
def new (minPriceTick maxPriceTick : Price) : Option PriceLadder := do
  let numLevels := maxPriceTick - minPriceTick + 1
  let turns := numLevels.toNat + 1
  let levels ← ascending maxPriceTick (fun levels price => some (levels ++ [{ priceTick := price }])) turns minPriceTick []
  let bidLevels ← descending minPriceTick
    (fun pointers price => (levelAt levels (price - minPriceTick)).map fun level => pointers ++ [level]) turns maxPriceTick []
  let askLevels ← ascending maxPriceTick
    (fun pointers price => (levelAt levels (price - minPriceTick)).map fun level => pointers ++ [level]) turns minPriceTick []
  return { minPriceTick, maxPriceTick, numLevels, levels, bidLevels, askLevels, orderIndex := ∅ }

def getLevel (ladder : PriceLadder) (priceTick : Price) : Option LevelAddress :=
  levelAt ladder.levels (priceTick - ladder.minPriceTick)

/-- `emplace` leaves an id that is there alone. -/
def addOrder (ladder : PriceLadder) (memory : Memory) (order : Address) : Option (PriceLadder × Memory) := do
  let added ← memory.lookup order
  let address ← ladder.getLevel added.priceTick
  let level ← ladder.levels[address]?
  let (level, memory) ← level.addOrder address memory order
  let added ← memory.lookup order
  let orderIndex := if added.orderId ∈ ladder.orderIndex then ladder.orderIndex else ladder.orderIndex.insert added.orderId order
  return ({ ladder with levels := ladder.levels.set address level, orderIndex }, memory)

def removeOrder (ladder : PriceLadder) (memory : Memory) (order : Address) : Option (PriceLadder × Memory) := do
  let removed ← memory.lookup order
  let address ← removed.level
  let level ← ladder.levels[address]?
  let (level, memory) ← level.removeOrder memory order
  let removed ← memory.lookup order
  return ({ ladder with levels := ladder.levels.set address level, orderIndex := ladder.orderIndex.erase removed.orderId }, memory)

/-- Static in the source: the level is reached through the order alone. -/
def modifyOrderVolume (ladder : PriceLadder) (memory : Memory) (order : Address) (newVolume : Volume) :
    Option (PriceLadder × Memory) := do
  let modified ← memory.lookup order
  let address ← modified.level
  let level ← ladder.levels[address]?
  let memory ← memory.modify order fun order => { order with volume := newVolume }
  let totalVolume := level.totalVolume - modified.volume + newVolume
  return ({ ladder with levels := ladder.levels.set address { level with totalVolume } }, memory)

def findOrder (ladder : PriceLadder) (orderId : OrderId) : Option Address := ladder.orderIndex.lookup orderId

/-- The first level with an order of the side. -/
def bestLevel (ladder : PriceLadder) (memory : Memory) (side : OrderSide) : List LevelAddress → Option (Option PriceLevel)
  | [] => some none
  | address :: rest => do
    let level ← ladder.levels[address]?
    if ← level.hasOrdersOfSide memory side then return some level
    bestLevel ladder memory side rest

def getBestBid (ladder : PriceLadder) (memory : Memory) : Option Price := do
  let level ← ladder.bestLevel memory .buy ladder.bidLevels
  return level.elim 0 PriceLevel.priceTick

def getBestAsk (ladder : PriceLadder) (memory : Memory) : Option Price := do
  let level ← ladder.bestLevel memory .sell ladder.askLevels
  return level.elim 18446744073709551615 PriceLevel.priceTick

/-! ### Depth -/

/-- The loop of the getters at a depth, which counts the levels with an order of
the side. -/
def levelAtDepth (ladder : PriceLadder) (memory : Memory) (side : OrderSide) (depth : Nat) :
    List LevelAddress → Nat → Option (Option PriceLevel)
  | [], _ => some none
  | address :: rest, nonEmptyCount => do
    let level ← ladder.levels[address]?
    if ← level.hasOrdersOfSide memory side then
      if nonEmptyCount = depth then return some level
      levelAtDepth ladder memory side depth rest (nonEmptyCount + 1)
    else levelAtDepth ladder memory side depth rest nonEmptyCount

/-- The volume of a side on a level, or nothing without a level. -/
def volumeOn (memory : Memory) (side : OrderSide) : Option PriceLevel → Option Volume
  | none => some 0
  | some level => level.getVolumeBySide memory side

def getBidLevel (ladder : PriceLadder) (memory : Memory) (depth : Nat) : Option (Option PriceLevel) :=
  ladder.levelAtDepth memory .buy depth ladder.bidLevels 0

def getAskLevel (ladder : PriceLadder) (memory : Memory) (depth : Nat) : Option (Option PriceLevel) :=
  ladder.levelAtDepth memory .sell depth ladder.askLevels 0

def getBidPriceAtDepth (ladder : PriceLadder) (memory : Memory) (depth : Nat) : Option Price := do
  let level ← ladder.getBidLevel memory depth
  return level.elim 0 PriceLevel.priceTick

def getAskPriceAtDepth (ladder : PriceLadder) (memory : Memory) (depth : Nat) : Option Price := do
  let level ← ladder.getAskLevel memory depth
  return level.elim 18446744073709551615 PriceLevel.priceTick

def getBidVolumeAtDepth (ladder : PriceLadder) (memory : Memory) (depth : Nat) : Option Volume := do
  let level ← ladder.getBidLevel memory depth
  volumeOn memory .buy level

def getAskVolumeAtDepth (ladder : PriceLadder) (memory : Memory) (depth : Nat) : Option Volume := do
  let level ← ladder.getAskLevel memory depth
  volumeOn memory .sell level

def getBestBidVolume (ladder : PriceLadder) (memory : Memory) : Option Volume := do
  let level ← ladder.bestLevel memory .buy ladder.bidLevels
  volumeOn memory .buy level

def getBestAskVolume (ladder : PriceLadder) (memory : Memory) : Option Volume := do
  let level ← ladder.bestLevel memory .sell ladder.askLevels
  volumeOn memory .sell level

def getOrderCount (ladder : PriceLadder) : Nat := ladder.orderIndex.keys.card

def isEmpty (ladder : PriceLadder) : Bool := ladder.getOrderCount == 0

end PriceLadder
end FinanceTech.PriceLevelStorage
