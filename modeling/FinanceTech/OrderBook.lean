import FinanceTech.Library.SortedMap
import FinanceTech.ScaledValue

/-! The order book of the trading core and the builder that feeds it. The
builder hands the events it publishes to its caller; the receive timestamp of an
event is a reading of the clock, so it is an input here. -/

namespace FinanceTech.Trading
open Library

/-- `std::map<Price, Quantity>`. -/
abbrev Levels := SortedMap.Map Price Quantity (· < ·)

structure BookLevel where
  price : Price := 0
  quantity : Quantity := 0
deriving DecidableEq, Repr

structure BookUpdate where
  instrument : InstrumentId := 0
  sequence : SequenceNumber := 0
  exchangeTimestamp : Timestamp := 0
  side : Side := .buy
  price : Price := 0
  quantity : Quantity := 0
deriving DecidableEq, Repr

structure MarketEvent where
  instrument : InstrumentId := 0
  sequence : SequenceNumber := 0
  exchangeTimestamp : Timestamp := 0
  receiveTimestamp : Timestamp := 0
  bestBid : Price := 0
  bestBidQuantity : Quantity := 0
  bestAsk : Price := 0
  bestAskQuantity : Quantity := 0
deriving DecidableEq, Repr

structure OrderBook where
  bids : Levels := .empty
  asks : Levels := .empty
  sequenceNumber : SequenceNumber := 0
  valid : Bool := false

namespace OrderBook

def levels (book : OrderBook) : Side → Levels
  | .buy => book.bids
  | .sell => book.asks

def setLevels (book : OrderBook) (levels : Levels) : Side → OrderBook
  | .buy => { book with bids := levels }
  | .sell => { book with asks := levels }

def clear (_ : OrderBook) : OrderBook := {}

def replace (_ : OrderBook) (sequence : SequenceNumber) (bids asks : Levels) : OrderBook :=
  { bids, asks, sequenceNumber := sequence, valid := true }

/-- Whether the update was applied, and the book after it. -/
def applyUpdate (book : OrderBook) (update : BookUpdate) : Bool × OrderBook :=
  if !book.valid then (false, book)
  else if update.sequence ≠ book.sequenceNumber + 1 then (false, { book with valid := false })
  else
    let levels := book.levels update.side
    let levels := if update.quantity.isZero then levels.erase update.price
      else levels.insertOrAssign update.price update.quantity
    (true, { book.setLevels levels update.side with sequenceNumber := update.sequence })

def bestBid (book : OrderBook) : Option BookLevel :=
  book.bids.last?.map fun entry => { price := entry.1, quantity := entry.2 }

def bestAsk (book : OrderBook) : Option BookLevel :=
  book.asks.first?.map fun entry => { price := entry.1, quantity := entry.2 }

end OrderBook

structure BookBuilder where
  instrument : InstrumentId

namespace BookBuilder

def publishMarketEvent (builder : BookBuilder) (book : OrderBook) (sequence : SequenceNumber)
    (exchangeTimestamp receiveTimestamp : Timestamp) : MarketEvent :=
  let bestBid := book.bestBid
  let bestAsk := book.bestAsk
  { instrument := builder.instrument
    sequence, exchangeTimestamp, receiveTimestamp
    bestBid := bestBid.elim 0 BookLevel.price
    bestBidQuantity := bestBid.elim 0 BookLevel.quantity
    bestAsk := bestAsk.elim 0 BookLevel.price
    bestAskQuantity := bestAsk.elim 0 BookLevel.quantity }

def applySnapshot (builder : BookBuilder) (book : OrderBook) (sequence : SequenceNumber) (bids asks : Levels)
    (exchangeTimestamp receiveTimestamp : Timestamp) : OrderBook × MarketEvent :=
  let book := book.replace sequence bids asks
  (book, builder.publishMarketEvent book sequence exchangeTimestamp receiveTimestamp)

/-- The book after an update, with the event if one is published. -/
def onBookUpdate (builder : BookBuilder) (book : OrderBook) (update : BookUpdate) (receiveTimestamp : Timestamp) :
    OrderBook × Option MarketEvent :=
  if update.instrument ≠ builder.instrument then (book, none)
  else
    let (applied, book) := book.applyUpdate update
    if !applied then (book, none)
    else (book, some (builder.publishMarketEvent book update.sequence update.exchangeTimestamp receiveTimestamp))

end BookBuilder

/-- What the builder and its book can be asked to do. -/
inductive BookEvent where
  | snapshot (sequence : SequenceNumber) (bids asks : Levels) (exchangeTimestamp receiveTimestamp : Timestamp)
  | update (update : BookUpdate) (receiveTimestamp : Timestamp)
  | clear

def BookEvent.isSnapshot : BookEvent → Bool
  | .snapshot .. => true
  | .update .. | .clear => false

/-- The book and everything published so far. -/
structure BookState where
  book : OrderBook := {}
  published : List MarketEvent := []

namespace BookState

def step (builder : BookBuilder) (state : BookState) : BookEvent → BookState
  | .snapshot sequence bids asks exchangeTimestamp receiveTimestamp =>
    let (book, event) := builder.applySnapshot state.book sequence bids asks exchangeTimestamp receiveTimestamp
    { book, published := state.published ++ [event] }
  | .update update receiveTimestamp =>
    let (book, event) := builder.onBookUpdate state.book update receiveTimestamp
    { book, published := state.published ++ event.toList }
  | .clear => { state with book := state.book.clear }

def run (builder : BookBuilder) (events : List BookEvent) : BookState := events.foldl (step builder) {}

end BookState
end FinanceTech.Trading
