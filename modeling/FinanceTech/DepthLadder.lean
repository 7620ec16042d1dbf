import FinanceTech.Library.Depth
import FinanceTech.MarketDepthBook

/-! What a stream of depth updates says each side of a market holds: the finite
map that the updates write, best price first. It is stated without slots;
nothing here is translated from the source. -/

namespace FinanceTech.MarketDepth
open Library SortedMap

variable {K V : Type} [LinearOrder K] {ordering : SortOrder}

/-- The order of a side, best price first. -/
def before (ordering : SortOrder) : K → K → Prop :=
  match ordering with
  | .ascending => (· < ·)
  | .descending => (· > ·)

instance : DecidableRel (before ordering : K → K → Prop) :=
  match ordering with
  | .ascending => fun first second => inferInstanceAs (Decidable (first < second))
  | .descending => fun first second => inferInstanceAs (Decidable (second < first))

instance : IsStrictTotalOrder K (before ordering) :=
  match ordering with
  | .ascending => inferInstanceAs (IsStrictTotalOrder K (· < ·))
  | .descending => inferInstanceAs (IsStrictTotalOrder K (· > ·))

/-- One side: its live prices, and the price whose removal last left it empty. -/
structure Ladder (K V : Type) [LinearOrder K] (ordering : SortOrder) where
  levels : Map K V (before ordering)
  vacated : K

structure DepthLadder (K V : Type) [LinearOrder K] where
  bids : Ladder K V .descending
  asks : Ladder K V .ascending

/-- A best price of a side with its quantity, or nothing for an empty side. -/
def Best (worse : K → K → Prop) (side : K → Option V) : Option (K × V) → Prop
  | none => ∀ price, side price = none
  | some (price, quantity) => side price = some quantity ∧ ∀ other, side other ≠ none → worse other price

variable [Zero V] [DecidableEq V]

namespace Ladder

def update (ladder : Ladder K V ordering) (price : K) (quantity : V) : Ladder K V ordering :=
  let levels := ladder.levels.write price quantity
  ⟨levels, if levels.entries = [] ∧ ladder.levels.entries ≠ [] then price else ladder.vacated⟩

/-- An update for the price that the empty side held last. -/
def Returns (ladder : Ladder K V ordering) (price : K) : Prop := ladder.levels.entries = [] ∧ ladder.vacated = price

end Ladder

namespace DepthLadder

def step (ladder : DepthLadder K V) (update : DepthUpdate K V) : DepthLadder K V :=
  match update.side with
  | .buy => { ladder with bids := ladder.bids.update update.price update.quantity }
  | .sell => { ladder with asks := ladder.asks.update update.price update.quantity }

/-- Both sides start empty, with zero for the price held last. -/
def run [Zero K] (updates : List (DepthUpdate K V)) : DepthLadder K V := updates.foldl step ⟨⟨.empty, 0⟩, ⟨.empty, 0⟩⟩

/-- Each side has room for its live prices. -/
structure Fits (ladder : DepthLadder K V) : Prop where
  bids : ladder.bids.levels.entries.length ≤ maxDepth
  asks : ladder.asks.levels.entries.length ≤ maxDepth

def Returns (ladder : DepthLadder K V) (update : DepthUpdate K V) : Prop :=
  match update.side with
  | .buy => ladder.bids.Returns update.price
  | .sell => ladder.asks.Returns update.price

end DepthLadder

/-- The writes that a stream makes to one side. -/
def writes (side : Side) (updates : List (DepthUpdate K V)) : List (K × V) :=
  (updates.filter fun update => update.side = side).map fun update => (update.price, update.quantity)

end FinanceTech.MarketDepth
