import Mathlib.Data.String.Basic
import FinanceTech.Library.RingWindow
import FinanceTech.PriceLevelBook

/-! The threads of the trading system. The connector reads each message of the feed
into the next of its buffers and pushes a pointer to it; the keeper of the books
pops the pointer, parses what is in the buffer, and applies it to the book of its
symbol. The access to a message in its buffer is one step. -/

namespace FinanceTech.TradingSystem
open Library.SortedMap

/-! ### Parsing -/

section Parsing

variable {Price Quantity : Type}

/-- What the parser finds in a message under `data`: the fields it reads, and
whether the numbers of a ticker are all there. -/
structure Payload (Price Quantity : Type) where
  eventType : Option String := none
  symbol : Option String := none
  eventTime : Option Int := none
  bids : Option (List (Price × Quantity)) := none
  asks : Option (List (Price × Quantity)) := none
  ticker : Bool := false
deriving DecidableEq, Repr

/-- An event with the fields that the keeper reads besides those of the book. -/
structure MarketEvent (Price Quantity : Type) extends Event Price Quantity where
  symbol : String := ""
  eventTime : Int := 0
deriving DecidableEq, Repr

def levels (entries : List (Price × Quantity)) : List (PriceLevel Price Quantity) :=
  entries.map fun entry => ⟨entry.1, entry.2⟩

/-- Parse a message into an event, which keeps what the message does not set. A
field that is missing where its value is taken throws. -/
def parse (message : Option (Payload Price Quantity)) (event : MarketEvent Price Quantity) :
    Option (MarketEvent Price Quantity × Bool) :=
  match message with
  | none => some ({ event with type := .result }, false)
  | some dataObj => do
    let eventTypeSv ← dataObj.eventType
    if eventTypeSv = "24hrTicker" then
      let eventTime ← dataObj.eventTime
      if dataObj.ticker then
        return ({ event with type := .ticker, symbol := dataObj.symbol.getD event.symbol, eventTime }, true)
      else none
    else if eventTypeSv = "24hrMiniTicker" then return ({ event with type := .miniTicker }, true)
    else if eventTypeSv = "aggTrade" then return ({ event with type := .aggTrade }, true)
    else if eventTypeSv = "trade" then return ({ event with type := .trade }, true)
    else if eventTypeSv = "depthUpdate" then
      let eventTime ← dataObj.eventTime
      let event := { event with type := .depthUpdate, symbol := dataObj.symbol.getD event.symbol, eventTime }
      match dataObj.bids with
      | none => return ({ event with depth := { event.depth with bid := [] } }, false)
      | some bids =>
        match dataObj.asks with
        | none => return ({ event with depth := { bid := levels bids, ask := [] } }, false)
        | some asks => return ({ event with depth := { bid := levels bids, ask := levels asks } }, true)
    else return (event, true)

end Parsing

/-! ### The keeper of the books -/

/-- The books of one exchange, with the event that all messages are parsed into. -/
structure ExchangeBookKeeper (Price Quantity : Type) [LinearOrder Price] where
  orderBooksByTicker : Map String (PriceLevelBook Price Quantity) (· < ·)
  event : MarketEvent Price Quantity := {}

namespace ExchangeBookKeeper

variable {Price Quantity : Type} [LinearOrder Price]

def tickers : List String := ["BTCUSDT", "XRPUSDT", "MEMEUSDT"]

def create : ExchangeBookKeeper Price Quantity where
  orderBooksByTicker := tickers.foldl (fun books ticker => books.emplace ticker {}) .empty

variable [Zero Quantity] [DecidableEq Quantity]

/-- The body of the keeper's loop after a pop. A symbol without a book gets a null
pointer, which is followed. -/
def process (keeper : ExchangeBookKeeper Price Quantity) (message : Option (Payload Price Quantity)) :
    Option (ExchangeBookKeeper Price Quantity) := do
  let (event, _) ← parse message keeper.event
  if event.type = .result then return { keeper with event }
  let book ← keeper.orderBooksByTicker.find? event.symbol
  return { orderBooksByTicker := keeper.orderBooksByTicker.insertOrAssign event.symbol (book.processEvent event.toEvent), event }

end ExchangeBookKeeper

/-! ### The two threads -/

def fast_modulo (n d : UInt32) : UInt32 := n &&& (d - 1)

def bufferSize : UInt32 := 1024

/-- The index of the buffer for the next message. -/
def bufferOf (counter : Nat) : Nat := (fast_modulo counter.toUInt32 bufferSize).toNat

/-- Where the connector's loop is. -/
inductive Connector (μ : Type) where
  | outside
  | cleared
  | filled (message : μ)
deriving DecidableEq, Repr

/-- The buffers of the connector, the queue of pointers into them, and the keeper
with the pointer that it has popped; it is gone once it has thrown or followed a
null pointer. `received` has the messages that were pushed, `parsed` what the
keeper has found in their buffers. -/
structure Pipeline (μ Price Quantity : Type) [LinearOrder Price] where
  buffers : List (Option μ) := List.replicate bufferSize.toNat none
  counter : Nat := 0
  connector : Connector μ := .outside
  queue : List Nat := []
  dataWrapper : Option Nat := none
  keeper : Option (ExchangeBookKeeper Price Quantity) := some .create
  received : List μ := []
  parsed : List (Option μ) := []

/-- Who takes the next step; a read brings a message or throws. -/
inductive Turn (μ : Type) where
  | clear
  | read (message : Option μ)
  | push
  | pop
  | parse
deriving DecidableEq, Repr

namespace Pipeline

variable {μ Price Quantity : Type} [LinearOrder Price] [Zero Quantity] [DecidableEq Quantity]

/-- The messages that the keeper has still to parse. -/
def lag (pipeline : Pipeline μ Price Quantity) : Nat := pipeline.received.length - pipeline.parsed.length

/-- The next step of the connector. What a read throws is caught. -/
def connect (pipeline : Pipeline μ Price Quantity) (turn : Turn μ) : Pipeline μ Price Quantity :=
  match turn, pipeline.connector with
  | .clear, .outside =>
    { pipeline with buffers := pipeline.buffers.set (bufferOf pipeline.counter) none, connector := .cleared }
  | .read (some message), .cleared =>
    { pipeline with buffers := pipeline.buffers.set (bufferOf pipeline.counter) (some message), connector := .filled message }
  | .read none, .cleared => { pipeline with connector := .outside }
  | .push, .filled message =>
    { pipeline with
      queue := pipeline.queue ++ [bufferOf pipeline.counter]
      counter := pipeline.counter + 1
      connector := .outside
      received := pipeline.received ++ [message] }
  | _, _ => pipeline

/-- The next step of the keeper, whose pop returns without a pointer when the queue
stays empty. -/
def keep (decode : μ → Option (Payload Price Quantity)) (pipeline : Pipeline μ Price Quantity) (turn : Turn μ) :
    Pipeline μ Price Quantity :=
  match turn, pipeline.dataWrapper, pipeline.queue with
  | .pop, none, pointer :: queue => { pipeline with queue, dataWrapper := some pointer }
  | .parse, some pointer, _ =>
    let message := pipeline.buffers[pointer]?.join
    { pipeline with
      dataWrapper := none
      keeper := pipeline.keeper.bind (·.process (message.bind decode))
      parsed := pipeline.parsed ++ [message] }
  | _, _, _ => pipeline

/-- One step of a thread, until the keeper is gone and the program with it. -/
def step (decode : μ → Option (Payload Price Quantity)) (pipeline : Pipeline μ Price Quantity) (turn : Turn μ) :
    Pipeline μ Price Quantity :=
  match pipeline.keeper, turn with
  | none, _ => pipeline
  | some _, .clear | some _, .read _ | some _, .push => pipeline.connect turn
  | some _, .pop | some _, .parse => pipeline.keep decode turn

def run (decode : μ → Option (Payload Price Quantity)) (turns : List (Turn μ)) : Pipeline μ Price Quantity :=
  turns.foldl (step decode) {}

end Pipeline
end FinanceTech.TradingSystem
