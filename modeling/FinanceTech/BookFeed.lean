import FinanceTech.Library.Depth
import FinanceTech.OrderBook

/-! What a sequenced feed of one instrument says about its market: a snapshot,
and the updates that continue it without a gap. This is the meaning the order
book has for its readers, stated without a book; nothing here is translated from
the source. -/

namespace FinanceTech.Trading
open Library

abbrev MarketDepth := Depth (Side × Price) Quantity

def BookUpdate.write (update : BookUpdate) : (Side × Price) × Quantity := ((update.side, update.price), update.quantity)

/-- A state of the market worth telling. -/
structure Publication where
  sequence : SequenceNumber
  exchangeTimestamp : Timestamp
  receiveTimestamp : Timestamp
  depth : MarketDepth

structure Feed where
  snapshot : MarketDepth := fun _ => none
  start : SequenceNumber := 0
  accepted : List BookUpdate := []
  live : Bool := false
  publications : List Publication := []

namespace Feed

def depth (feed : Feed) : MarketDepth := feed.snapshot.folded (feed.accepted.map BookUpdate.write)

/-- The number of the last thing the feed said. -/
def sequence (feed : Feed) : SequenceNumber := feed.start + UInt64.ofNat feed.accepted.length

def depthOf (bids asks : Levels) : MarketDepth
  | (.buy, price) => bids.find? price
  | (.sell, price) => asks.find? price

def publish (feed : Feed) (exchangeTimestamp receiveTimestamp : Timestamp) : Feed :=
  { feed with publications := feed.publications ++ [⟨feed.sequence, exchangeTimestamp, receiveTimestamp, feed.depth⟩] }

def step (instrument : InstrumentId) (feed : Feed) : BookEvent → Feed
  | .snapshot sequence bids asks exchangeTimestamp receiveTimestamp =>
    { feed with snapshot := depthOf bids asks, start := sequence, accepted := [], live := true }.publish
      exchangeTimestamp receiveTimestamp
  | .update update receiveTimestamp =>
    if update.instrument ≠ instrument then feed
    else if feed.live ∧ update.sequence = feed.sequence + 1 then
      { feed with accepted := feed.accepted ++ [update] }.publish update.exchangeTimestamp receiveTimestamp
    else { feed with live := false }
  | .clear => { feed with snapshot := fun _ => none, start := 0, accepted := [], live := false }

def run (instrument : InstrumentId) (events : List BookEvent) : Feed := events.foldl (step instrument) {}

end Feed

/-- The best place of a side: the extreme price that holds something, or zeros
when none does. -/
def Best (worse : Price → Price → Prop) (side : Price → Option Quantity) (price : Price) (quantity : Quantity) : Prop :=
  (side price = some quantity ∧ ∀ other, side other ≠ none → other = price ∨ worse other price) ∨
    (∀ other, side other = none) ∧ price = 0 ∧ quantity = 0

/-- An event that tells a publication. -/
structure MarketEvent.Tells (event : MarketEvent) (instrument : InstrumentId) (publication : Publication) : Prop where
  instrument : event.instrument = instrument
  sequence : event.sequence = publication.sequence
  exchangeTimestamp : event.exchangeTimestamp = publication.exchangeTimestamp
  receiveTimestamp : event.receiveTimestamp = publication.receiveTimestamp
  bid : Best (· < ·) (fun price => publication.depth (.buy, price)) event.bestBid event.bestBidQuantity
  ask : Best (· > ·) (fun price => publication.depth (.sell, price)) event.bestAsk event.bestAskQuantity

end FinanceTech.Trading
