import FinanceTech.RingBuffer
import FinanceTech.MarketDepthBook

/-! The market data service and its three threads. The connector fills the slots of
a ring with the entries of the feed; the parser takes each slot, turns it into an
event and offers the event to the pricer; the pricer applies the events to the depth
book. Every atomic operation on an index and every use of a slot is a step of its own. -/

namespace FinanceTech.DataFeed
open RingBuffers MarketDepth
open RingBuffers.TwoPhasePush (Buffer)

/-! ### Events -/

section Events

variable {Data Price Quantity : Type}

/-- The events of the streams, with what their handlers read. -/
inductive BinanceMarketEvent (Price Quantity : Type) where
  | bookTicker
  | miniTicker
  | trade
  | aggTrade
  | depthUpdate (bids asks : List (Price × Quantity))
  | notYetImplemented (streamName : List Char)
deriving DecidableEq, Repr

/-- A variant starts out as its first alternative. -/
instance : Inhabited (BinanceMarketEvent Price Quantity) := ⟨.bookTicker⟩

/-- What the parser of each kind of event makes of the data of a message; a field
that is missing or is no number throws. -/
structure BinanceParserJson (Data Price Quantity : Type) where
  parseMiniTicker : Data → Option Unit
  parseBookTicker : Data → Option Unit
  parseTrade : Data → Option Unit
  parseAggTrade : Data → Option Unit
  parseDepthUpdate : Data → Option (List (Price × Quantity) × List (Price × Quantity))

/-- The name of a stream behind its symbol. Where there is no `@`, the position that
was not found wraps to zero and the whole name stays. -/
def removeSymbol (stream : List Char) : List Char :=
  match stream.idxOf? '@' with
  | none => stream
  | some pos => stream.drop (pos + 1)

def parseEventData (parsers : BinanceParserJson Data Price Quantity) (stream : List Char) (data : Data) :
    Option (BinanceMarketEvent Price Quantity) :=
  let stream := removeSymbol stream
  if "miniTicker".toList.isPrefixOf stream then (parsers.parseMiniTicker data).map fun _ => .miniTicker
  else if "bookTicker".toList.isPrefixOf stream then (parsers.parseBookTicker data).map fun _ => .bookTicker
  else if "trade".toList.isPrefixOf stream then (parsers.parseTrade data).map fun _ => .trade
  else if "aggTrade".toList.isPrefixOf stream then (parsers.parseAggTrade data).map fun _ => .aggTrade
  else if "depth".toList.isPrefixOf stream then
    (parsers.parseDepthUpdate data).map fun update => .depthUpdate update.1 update.2
  else some (.notYetImplemented stream)

/-- Parse the characters of a slot. `json` reads the stream and the data of a message. -/
def parse (json : Buffer → Option (List Char × Data)) (parsers : BinanceParserJson Data Price Quantity) (buffer : Buffer) :
    Option (BinanceMarketEvent Price Quantity) := do
  let (stream, data) ← json buffer
  parseEventData parsers stream data

/-- The handler of an event; an access outside the arrays of the book has no result. -/
def handleEvent [LinearOrder Price] [Zero Quantity] [DecidableEq Quantity] (marketDepthBook : MarketDepthBook Price Quantity) :
    BinanceMarketEvent Price Quantity → Option (MarketDepthBook Price Quantity)
  | .depthUpdate bids asks => do
    let marketDepthBook ← bids.foldlM (fun book level => book.buyUpdate level.1 level.2) marketDepthBook
    asks.foldlM (fun book level => book.askUpdate level.1 level.2) marketDepthBook
  | _ => some marketDepthBook

end Events

/-! ### The threads -/

/-- Where the loop of the connector is; it ends when the ring hands out no slot. -/
inductive Connector where
  | getItem
  | getData
  | commit
  | stopped
deriving DecidableEq, Repr

/-- Where the loop of the parser is: at its slot, or offering an event to the pricer. -/
inductive Parser (Price Quantity : Type) where
  | pop
  | push (event : BinanceMarketEvent Price Quantity)
deriving DecidableEq, Repr

/-- The threads with what they share. `terminated` is set by what ends the program: the
feed has no more entries, or an entry cannot be parsed. `parsed` has the events parsed,
`offered` those that `push` returned for, with whether the pricer's queue took them, and
`handled` those applied to the book. The book is missing after an access outside it. -/
structure Service (Price Quantity : Type) where
  feed : TwoPhasePush.System
  pricer : Basic.System (BinanceMarketEvent Price Quantity)
  connector : Connector := .getItem
  readPost : Nat := 0
  parser : Parser Price Quantity := .pop
  event : Option (BinanceMarketEvent Price Quantity) := none
  book : Option (MarketDepthBook Price Quantity)
  terminated : Bool := false
  parsed : List (BinanceMarketEvent Price Quantity) := []
  offered : List (BinanceMarketEvent Price Quantity × Bool) := []
  handled : List (BinanceMarketEvent Price Quantity) := []

/-- The thread that takes the next step. -/
inductive Turn where
  | connector
  | parser
  | pricer
deriving DecidableEq, Repr

namespace Service

variable {Price Quantity : Type} (feedCapacity pricerCapacity : Capacity)

def initial [Zero Price] [Zero Quantity] : Service Price Quantity where
  feed := .initial feedCapacity
  pricer := .initial pricerCapacity
  book := some .new

/-- The next step of the connector, which reads the entries of `data` one by one. -/
def connect (data : List Buffer) (service : Service Price Quantity) : Option (Service Price Quantity) :=
  match service.connector with
  | .getItem =>
    let feed := service.feed.getItem feedCapacity
    match feed.producer with
    | .outside => some { service with feed, connector := .stopped }
    | .loadTail => some { service with feed }
    | .filling _ => some { service with feed, connector := .getData }
  | .getData =>
    if service.readPost = data.length then some { service with terminated := true }
    else do
      let entry ← data[service.readPost % data.length]?
      let feed ← service.feed.step feedCapacity (.append entry)
      return { service with feed, readPost := service.readPost + 1, connector := .commit }
  | .commit => do
    let feed ← service.feed.step feedCapacity .commit
    return { service with feed, connector := .getItem }
  | .stopped => some service

/-- The next step of the parser. A `push` whose `put` finds the queue full drops its event. -/
def parserStep (decode : Buffer → Option (BinanceMarketEvent Price Quantity)) (service : Service Price Quantity) :
    Option (Service Price Quantity) :=
  match service.parser, service.feed.consumer with
  | .pop, .reading item => do
    let message ← service.feed.ring.buffer[item.toNat]?
    let feed ← service.feed.pop feedCapacity
    match decode message with
    | none => return { service with feed, terminated := true }
    | some event => return { service with feed, parser := .push event, parsed := service.parsed ++ [event] }
  | .pop, _ => do
    let feed ← service.feed.pop feedCapacity
    return { service with feed }
  | .push event, _ => do
    let pricer ← service.pricer.producer pricerCapacity event
    match service.pricer.put, pricer.put with
    | .storeHead .., _ => return { service with pricer, parser := .pop, offered := service.offered ++ [(event, true)] }
    | .loadTail .., .outside => return { service with pricer, parser := .pop, offered := service.offered ++ [(event, false)] }
    | _, _ => return { service with pricer }

/-- The next step of the pricer: in `pop`, or at the event that it has popped. -/
def handleEvents [LinearOrder Price] [Zero Quantity] [DecidableEq Quantity]
    (moved : BinanceMarketEvent Price Quantity → BinanceMarketEvent Price Quantity) (service : Service Price Quantity) :
    Option (Service Price Quantity) :=
  match service.event with
  | some event =>
    let book := service.book.bind fun book => handleEvent book event
    some { service with event := none, book, handled := service.handled ++ [event] }
  | none => do
    let pricer ← service.pricer.consumer pricerCapacity moved
    match service.pricer.pop with
    | .storeTail event _ => return { service with pricer, event := some event }
    | _ => return { service with pricer }

variable [LinearOrder Price] [Zero Quantity] [DecidableEq Quantity]

/-- The next step of a thread, until the program ends. -/
def step (data : List Buffer) (decode : Buffer → Option (BinanceMarketEvent Price Quantity))
    (moved : BinanceMarketEvent Price Quantity → BinanceMarketEvent Price Quantity) (service : Service Price Quantity)
    (turn : Turn) : Option (Service Price Quantity) :=
  if service.terminated then some service
  else match turn with
    | .connector => service.connect feedCapacity data
    | .parser => service.parserStep feedCapacity pricerCapacity decode
    | .pricer => service.handleEvents pricerCapacity moved

end Service
end FinanceTech.DataFeed
