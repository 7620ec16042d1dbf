import FinanceTech.DataFeeder
import FinanceTech.Proofs.DepthBookRefinement
import FinanceTech.Proofs.FeedPush
import FinanceTech.Proofs.RingQueue

/-! The three threads of the service hand the feed on. Each thread changes its own
ends of the two rings only, so the facts about one hand-over stay true while the
threads of the other one move. -/

namespace FinanceTech.Proofs.FeedDelivery
open List Library RingBuffers MarketDepth DataFeed
open RingBuffers.TwoPhasePush (Buffer)

section Ends

variable {capacity : Capacity}

/-- What `getItem` leaves as it is. -/
theorem getItem_frame (feed : TwoPhasePush.System) : (feed.getItem capacity).committed = feed.committed ∧
    (feed.getItem capacity).messages = feed.messages ∧ (feed.getItem capacity).ring.buffer = feed.ring.buffer ∧
    (feed.getItem capacity).consumer = feed.consumer := by
  unfold TwoPhasePush.System.getItem
  cases feed.producer with
  | outside => exact ⟨rfl, rfl, rfl, rfl⟩
  | loadTail =>
    dsimp only
    split <;> exact ⟨rfl, rfl, rfl, rfl⟩
  | filling item => exact ⟨rfl, rfl, rfl, rfl⟩

private theorem getItem_empty {feed : TwoPhasePush.System} (valid : RingHandOver.Valid capacity feed)
    (outside : ∀ item, feed.producer ≠ .filling item) {item : UInt32} (filling : (feed.getItem capacity).producer = .filling item) :
    feed.ring.buffer[item.toNat]? = some [] := by
  unfold TwoPhasePush.System.getItem at filling
  cases place : feed.producer with
  | outside =>
    rw [place] at filling
    cases filling
  | filling other => exact absurd place (outside other)
  | loadTail =>
    rw [place] at filling
    by_cases full : feed.ring.headNext = feed.ring.tail
    · simp only [if_pos full] at filling
      cases filling
    · simp only [if_neg full] at filling
      cases filling
      exact FeedPush.slot_empty valid place full

/-- The message that the consumer reads in a step of `pop`. -/
def read (feed : TwoPhasePush.System) : Option Buffer :=
  match feed.consumer with
  | .reading item => feed.ring.buffer[item.toNat]?
  | _ => none

theorem pop_frame {feed next : TwoPhasePush.System} (valid : RingHandOver.Valid capacity feed)
    (popped : feed.pop capacity = some next) : next.committed = feed.committed ∧ next.producer = feed.producer ∧
    next.messages = feed.messages ++ (read feed).toList ∧
    ∀ item : UInt32, feed.producer = .filling item → next.ring.buffer[item.toNat]? = feed.ring.buffer[item.toNat]? := by
  unfold TwoPhasePush.System.pop at popped
  unfold read
  cases place : feed.consumer with
  | outside =>
    simp only [place, Option.some.injEq] at popped
    subst popped
    exact ⟨rfl, rfl, (append_nil _).symm, fun _ _ => rfl⟩
  | loadHead tailLocal =>
    simp only [place] at popped
    split at popped <;> cases popped <;> exact ⟨rfl, rfl, (append_nil _).symm, fun _ _ => rfl⟩
  | storeTail tailLocal =>
    simp only [place, Option.some.injEq] at popped
    subst popped
    exact ⟨rfl, rfl, (append_nil _).symm, fun _ _ => rfl⟩
  | reading item =>
    simp only [place] at popped
    split at popped
    · cases popped
    next message stored =>
      cases popped
      refine ⟨rfl, rfl, ?_, fun _ _ => rfl⟩
      simp only [stored, Option.toList_some]
  | clearing item =>
    simp only [place] at popped
    split at popped
    · cases popped
      refine ⟨rfl, rfl, (append_nil _).symm, fun other filling => ?_⟩
      exact getElem?_set_ne (FeedPush.clearing_apart valid place filling)
    · cases popped

variable {T : Type}

/-- The item that a step of `put` adds to the queue. -/
def taken (queue : Basic.System T) : Option T :=
  match queue.put with
  | .storeHead item _ _ => some item
  | _ => none

/-- The item that a step of `pop` returns. -/
def returned (queue : Basic.System T) : Option T :=
  match queue.pop with
  | .storeTail item _ => some item
  | _ => none

def Holds (item : T) : Basic.Put T → Prop
  | .outside => True
  | .loadTail held _ _ | .write held _ _ | .storeHead held _ _ => held = item

theorem put_frame {queue next : Basic.System T} {item : T} (moved : queue.producer capacity item = some next) :
    next.popped = queue.popped ∧ RingQueue.items next = RingQueue.items queue ++ (taken queue).toList ∧
    (Holds item queue.put → Holds item next.put) := by
  unfold Basic.System.producer at moved
  unfold taken RingQueue.items
  cases place : queue.put with
  | outside =>
    simp only [place, Option.some.injEq] at moved
    subst moved
    exact ⟨rfl, (append_nil _).symm, fun _ => rfl⟩
  | loadTail held headCurrent headNext =>
    simp only [place] at moved
    split at moved <;> cases moved
    · exact ⟨rfl, (append_nil _).symm, fun _ => trivial⟩
    · exact ⟨rfl, (append_nil _).symm, fun same => same⟩
  | write held headCurrent headNext =>
    simp only [place] at moved
    split at moved <;> cases moved
    exact ⟨rfl, (append_nil _).symm, fun same => same⟩
  | storeHead held headCurrent headNext =>
    simp only [place, Option.some.injEq] at moved
    subst moved
    exact ⟨rfl, map_append, fun _ => trivial⟩

private theorem take_frame {queue next : Basic.System T} {moved : T → T} (popped : queue.consumer capacity moved = some next) :
    next.put = queue.put ∧ next.accepted = queue.accepted ∧ next.popped = queue.popped ++ (returned queue).toList := by
  unfold Basic.System.consumer at popped
  unfold returned
  cases place : queue.pop with
  | outside =>
    simp only [place, Option.some.injEq] at popped
    subst popped
    exact ⟨rfl, rfl, (append_nil _).symm⟩
  | loadHead tailCurrent =>
    simp only [place] at popped
    split at popped <;> cases popped <;> exact ⟨rfl, rfl, (append_nil _).symm⟩
  | read tailCurrent =>
    simp only [place] at popped
    split at popped <;> cases popped
    exact ⟨rfl, rfl, (append_nil _).symm⟩
  | storeTail item tailCurrent =>
    simp only [place, Option.some.injEq] at popped
    subst popped
    exact ⟨rfl, rfl, rfl⟩

end Ends

variable {Price Quantity : Type} [LinearOrder Price] [Zero Quantity] [DecidableEq Quantity]

/-- How much of the feed is in the ring where the connector is. -/
def ConnectorAt (data : List Buffer) (service : Service Price Quantity) : Prop :=
  match service.connector with
  | .getItem => service.feed.committed = data.take service.readPost ∧ ∀ item, service.feed.producer ≠ .filling item
  | .getData => service.feed.committed = data.take service.readPost ∧
      ∃ item, service.feed.producer = .filling item ∧ service.feed.ring.buffer[item.toNat]? = some []
  | .commit => ∃ item entry, service.feed.producer = .filling item ∧ service.feed.ring.buffer[item.toNat]? = some entry ∧
      data.take service.readPost = service.feed.committed ++ [entry]
  | .stopped => service.feed.committed = data.take service.readPost

/-- Which of the events parsed have been offered where the parser is. -/
def ParserAt (service : Service Price Quantity) : Prop :=
  match service.parser with
  | .pop => service.offered.map Prod.fst = service.parsed ∧ service.pricer.put = .outside
  | .push event => service.offered.map Prod.fst ++ [event] = service.parsed ∧ Holds event service.pricer.put

/-- The changes of an event to the depth book. -/
def updates : BinanceMarketEvent Price Quantity → List (DepthUpdate Price Quantity)
  | .depthUpdate bids asks => bids.map (fun level => ⟨level.1, level.2, .buy⟩) ++ asks.map (fun level => ⟨level.1, level.2, .sell⟩)
  | _ => []

private theorem handleEvent_updates (book : MarketDepthBook Price Quantity) (event : BinanceMarketEvent Price Quantity) :
    handleEvent book event = book.handleEvents (updates event) := by
  cases event with
  | depthUpdate bids asks =>
    simp only [handleEvent, updates, MarketDepthBook.handleEvents, foldlM_append, foldlM_map]
    rfl
  | _ => rfl

private theorem handleEvent_run (events : List (BinanceMarketEvent Price Quantity)) (book : MarketDepthBook Price Quantity) :
    events.foldlM handleEvent book = book.handleEvents (events.flatMap updates) := by
  induction events generalizing book with
  | nil => rfl
  | cons event rest ih =>
    rw [foldlM_cons, flatMap_cons, MarketDepthBook.handleEvents, foldlM_append, handleEvent_updates]
    exact congrArg _ (funext ih)

def bookOf [Zero Price] (events : List (BinanceMarketEvent Price Quantity)) : Option (MarketDepthBook Price Quantity) :=
  events.foldlM handleEvent .new

structure Valid [Zero Price] (feedCapacity pricerCapacity : Capacity) (data : List Buffer)
    (decode : Buffer → Option (BinanceMarketEvent Price Quantity)) (service : Service Price Quantity) : Prop where
  feed : RingHandOver.Valid feedCapacity service.feed
  pricer : RingQueue.Valid pricerCapacity service.pricer
  readPost : service.readPost ≤ data.length
  connector : ConnectorAt data service
  decoded : service.parsed.map some <+: service.feed.messages.map decode
  alive : service.terminated = false → service.parsed.length = service.feed.messages.length
  parser : ParserAt service
  accepted : RingQueue.items service.pricer = (service.offered.filter Prod.snd).map Prod.fst
  handled : service.handled ++ service.event.toList = service.pricer.popped
  book : service.book = bookOf service.handled

section Steps

variable [Zero Price] {feedCapacity pricerCapacity : Capacity} {data : List Buffer}
  {decode : Buffer → Option (BinanceMarketEvent Price Quantity)} {service : Service Price Quantity}

theorem initial_valid : Valid feedCapacity pricerCapacity data decode (Service.initial feedCapacity pricerCapacity) where
  feed := RingHandOver.initial_valid feedCapacity
  pricer := RingQueue.initial_valid pricerCapacity
  readPost := Nat.zero_le _
  connector := ⟨rfl, fun item filling => by cases filling⟩
  decoded := prefix_rfl
  alive _ := rfl
  parser := ⟨rfl, rfl⟩
  accepted := rfl
  handled := rfl
  book := rfl

theorem Valid.connector_at (valid : Valid feedCapacity pricerCapacity data decode service) {connector : Connector}
    (place : service.connector = connector) : ConnectorAt data { service with connector } := by
  rw [← place]
  exact valid.connector

theorem Valid.parser_at (valid : Valid feedCapacity pricerCapacity data decode service) {parser : Parser Price Quantity}
    (place : service.parser = parser) : ParserAt { service with parser } := by
  rw [← place]
  exact valid.parser

theorem Valid.with_connector (valid : Valid feedCapacity pricerCapacity data decode service) {feed : TwoPhasePush.System}
    {connector : Connector} {readPost : Nat} (ring : RingHandOver.Valid feedCapacity feed)
    (messages : feed.messages = service.feed.messages) (inside : readPost ≤ data.length)
    (place : ConnectorAt data { service with feed, connector, readPost }) :
    Valid feedCapacity pricerCapacity data decode { service with feed, connector, readPost } := by
  refine ⟨ring, valid.pricer, inside, place, ?_, ?_, valid.parser, valid.accepted, valid.handled, valid.book⟩
  · dsimp only
    rw [messages]
    exact valid.decoded
  · dsimp only
    rw [messages]
    exact valid.alive

private theorem getItem_step (valid : Valid feedCapacity pricerCapacity data decode service) (place : service.connector = .getItem) :
    ∃ next, service.connect feedCapacity data = some next ∧ Valid feedCapacity pricerCapacity data decode next := by
  obtain ⟨committed, outside⟩ : service.feed.committed = data.take service.readPost ∧
    ∀ item, service.feed.producer ≠ .filling item := valid.connector_at place
  obtain ⟨kept, messages, buffer, -⟩ := @getItem_frame feedCapacity service.feed
  have ring := RingHandOver.getItem_valid valid.feed outside
  have read := kept.trans committed
  cases reached : (service.feed.getItem feedCapacity).producer with
  | outside =>
    have moved : service.connect feedCapacity data =
        some { service with feed := service.feed.getItem feedCapacity, connector := .stopped } := by
      simp only [Service.connect, place, reached]
    exact ⟨_, moved, valid.with_connector ring messages valid.readPost read⟩
  | loadTail =>
    have moved : service.connect feedCapacity data =
        some { service with feed := service.feed.getItem feedCapacity, connector := .getItem } := by
      simp only [Service.connect, place, reached]
    refine ⟨_, moved, valid.with_connector ring messages valid.readPost ⟨read, ?_⟩⟩
    intro item filling
    cases reached.symm.trans filling
  | filling item =>
    have moved : service.connect feedCapacity data =
        some { service with feed := service.feed.getItem feedCapacity, connector := .getData } := by
      simp only [Service.connect, place, reached]
    have empty := getItem_empty valid.feed outside reached
    refine ⟨_, moved, valid.with_connector ring messages valid.readPost ⟨read, item, reached, ?_⟩⟩
    dsimp only
    rw [buffer]
    exact empty

private theorem getData_step (valid : Valid feedCapacity pricerCapacity data decode service) (place : service.connector = .getData) :
    ∃ next, service.connect feedCapacity data = some next ∧ Valid feedCapacity pricerCapacity data decode next := by
  obtain ⟨committed, item, filling, empty⟩ : service.feed.committed = data.take service.readPost ∧
    ∃ item, service.feed.producer = .filling item ∧ service.feed.ring.buffer[item.toNat]? = some [] := valid.connector_at place
  by_cases last : service.readPost = data.length
  · have moved : service.connect feedCapacity data = some { service with terminated := true } := by
      simp only [Service.connect, place, if_pos last]
    refine ⟨_, moved, { valid with alive := ?_ }⟩
    intro running
    cases running
  · have inside : service.readPost < data.length := lt_of_le_of_ne valid.readPost last
    have entry : data[service.readPost % data.length]? = some data[service.readPost] := by
      rw [Nat.mod_eq_of_lt inside]
      exact getElem?_eq_getElem inside
    obtain ⟨feed, appended, ring⟩ := RingHandOver.append_valid valid.feed filling data[service.readPost]
    have copied := appended
    simp only [TwoPhasePush.System.append, empty, nil_append, Option.some.injEq] at copied
    have moved : service.connect feedCapacity data =
        some { service with feed, connector := .commit, readPost := service.readPost + 1 } := by
      simp only [Service.connect, place, if_neg last, entry, TwoPhasePush.System.step, filling, appended,
        Option.bind_eq_bind, Option.bind_some, Option.pure_def]
    refine ⟨_, moved, valid.with_connector ring ?_ inside ⟨item, data[service.readPost], ?_, ?_, ?_⟩⟩
    · rw [← copied]
    · dsimp only
      rw [← copied]
      exact filling
    · dsimp only
      rw [← copied]
      exact getElem?_set_self (List.getElem?_eq_some_iff.mp empty).1
    · dsimp only
      rw [← copied, take_succ_eq_append_getElem inside]
      exact congrArg (· ++ [data[service.readPost]]) committed.symm

private theorem commit_step (valid : Valid feedCapacity pricerCapacity data decode service) (place : service.connector = .commit) :
    ∃ next, service.connect feedCapacity data = some next ∧ Valid feedCapacity pricerCapacity data decode next := by
  obtain ⟨item, entry, filling, stored, read⟩ : ∃ item entry, service.feed.producer = .filling item ∧
    service.feed.ring.buffer[item.toNat]? = some entry ∧
    data.take service.readPost = service.feed.committed ++ [entry] := valid.connector_at place
  obtain ⟨feed, committed, ring⟩ := RingHandOver.commit_valid valid.feed filling
  have handed := committed
  simp only [TwoPhasePush.System.commit, stored, Option.some.injEq] at handed
  have moved : service.connect feedCapacity data = some { service with feed, connector := .getItem } := by
    simp only [Service.connect, place, TwoPhasePush.System.step, filling, committed, Option.bind_eq_bind, Option.bind_some,
      Option.pure_def]
  refine ⟨_, moved, valid.with_connector ring ?_ valid.readPost ⟨?_, ?_⟩⟩
  · rw [← handed]
  · dsimp only
    rw [← handed]
    exact read.symm
  · intro other
    dsimp only
    rw [← handed]
    intro same
    cases same

private theorem connect_valid (valid : Valid feedCapacity pricerCapacity data decode service) :
    ∃ next, service.connect feedCapacity data = some next ∧ Valid feedCapacity pricerCapacity data decode next := by
  cases place : service.connector with
  | getItem => exact getItem_step valid place
  | getData => exact getData_step valid place
  | commit => exact commit_step valid place
  | stopped =>
    have moved : service.connect feedCapacity data = some service := by simp only [Service.connect, place]
    exact ⟨_, moved, valid⟩

omit [LinearOrder Price] [Zero Quantity] [DecidableEq Quantity] [Zero Price] in
theorem ConnectorAt.same (kept : ConnectorAt data service) {feed : TwoPhasePush.System}
    (committed : feed.committed = service.feed.committed) (producer : feed.producer = service.feed.producer)
    (slot : ∀ item : UInt32, service.feed.producer = .filling item →
      feed.ring.buffer[item.toNat]? = service.feed.ring.buffer[item.toNat]?) : ConnectorAt data { service with feed } := by
  unfold ConnectorAt at kept ⊢
  dsimp only
  rw [committed, producer]
  cases place : service.connector with
  | getItem =>
    rw [place] at kept
    exact kept
  | getData =>
    rw [place] at kept
    obtain ⟨read, item, filling, empty⟩ := kept
    exact ⟨read, item, filling, (slot item filling).trans empty⟩
  | commit =>
    rw [place] at kept
    obtain ⟨item, entry, filling, stored, read⟩ := kept
    exact ⟨item, entry, filling, (slot item filling).trans stored, read⟩
  | stopped =>
    rw [place] at kept
    exact kept

private theorem unread_step (valid : Valid feedCapacity pricerCapacity data decode service) {feed : TwoPhasePush.System}
    (popped : service.feed.pop feedCapacity = some feed) (ring : RingHandOver.Valid feedCapacity feed)
    (unread : read service.feed = none) : Valid feedCapacity pricerCapacity data decode { service with feed } := by
  obtain ⟨committed, producer, messages, slot⟩ := pop_frame valid.feed popped
  rw [unread, Option.toList_none, append_nil] at messages
  refine { valid with feed := ring, connector := valid.connector.same committed producer slot, decoded := ?_, alive := ?_ }
  · dsimp only
    rw [messages]
    exact valid.decoded
  · dsimp only
    rw [messages]
    exact valid.alive

/-- A message is read, and parsed if it can be. -/
theorem read_step (valid : Valid feedCapacity pricerCapacity data decode service) (running : service.terminated = false)
    (place : service.parser = .pop) {item : UInt32} (reading : service.feed.consumer = .reading item) :
    ∃ next, service.parserStep feedCapacity pricerCapacity decode = some next ∧
      Valid feedCapacity pricerCapacity data decode next := by
  obtain ⟨feed, popped, ring⟩ := RingHandOver.pop_valid valid.feed
  obtain ⟨committed, producer, messages, slot⟩ := pop_frame valid.feed popped
  obtain ⟨message, stored⟩ : ∃ message, service.feed.ring.buffer[item.toNat]? = some message := by
    cases stored : service.feed.ring.buffer[item.toNat]? with
    | some message => exact ⟨message, rfl⟩
    | none => simp only [TwoPhasePush.System.pop, reading, stored, reduceCtorEq] at popped
  have found : read service.feed = some message := by simp only [read, reading, stored]
  rw [found, Option.toList_some] at messages
  have here := valid.connector.same committed producer slot
  have all := valid.alive running
  have decodes : feed.messages.map decode = service.feed.messages.map decode ++ [decode message] := by rw [messages, map_append]; rfl
  cases parsed : decode message with
  | none =>
    have moved : service.parserStep feedCapacity pricerCapacity decode = some { service with feed, terminated := true } := by
      simp only [Service.parserStep, place, reading, stored, popped, parsed, Option.bind_eq_bind, Option.bind_some, Option.pure_def]
    refine ⟨_, moved, { valid with feed := ring, connector := here, decoded := ?_, alive := ?_ }⟩
    · dsimp only
      rw [decodes]
      exact valid.decoded.trans (prefix_append _ _)
    · intro still
      cases still
  | some event =>
    have moved : service.parserStep feedCapacity pricerCapacity decode =
        some { service with feed, parser := .push event, parsed := service.parsed ++ [event] } := by
      simp only [Service.parserStep, place, reading, stored, popped, parsed, Option.bind_eq_bind, Option.bind_some, Option.pure_def]
    obtain ⟨offered, idle⟩ : service.offered.map Prod.fst = service.parsed ∧ service.pricer.put = .outside := valid.parser_at place
    refine ⟨_, moved, { valid with feed := ring, connector := here, decoded := ?_, alive := ?_, parser := ⟨?_, ?_⟩ }⟩
    · have whole : service.parsed.map some = service.feed.messages.map decode := by
        apply valid.decoded.eq_of_length
        rw [length_map, length_map, all]
      dsimp only
      rw [decodes, parsed, map_append, whole]
      exact prefix_rfl
    · intro _
      dsimp only
      rw [messages, length_append, length_append, all]
      rfl
    · dsimp only
      rw [offered]
    · dsimp only
      rw [idle]
      trivial

theorem Valid.with_push (valid : Valid feedCapacity pricerCapacity data decode service)
    {pricer : Basic.System (BinanceMarketEvent Price Quantity)} {parser : Parser Price Quantity}
    {offered : List (BinanceMarketEvent Price Quantity × Bool)} (queue : RingQueue.Valid pricerCapacity pricer)
    (popped : pricer.popped = service.pricer.popped) (accepted : RingQueue.items pricer = (offered.filter Prod.snd).map Prod.fst)
    (place : ParserAt { service with pricer, parser, offered }) :
    Valid feedCapacity pricerCapacity data decode { service with pricer, parser, offered } :=
  { valid with
    pricer := queue
    parser := place
    accepted := accepted
    handled := valid.handled.trans popped.symm }

/-- The call of `put` is about to find the queue full. -/
def Full (queue : Basic.System (BinanceMarketEvent Price Quantity)) : Prop :=
  ∃ item headCurrent headNext, queue.put = .loadTail item headCurrent headNext ∧ headNext = queue.ring.tail

/-- What a call of `push` has come to after a step. -/
inductive Pushed (service : Service Price Quantity) (event : BinanceMarketEvent Price Quantity)
    (pricer : Basic.System (BinanceMarketEvent Price Quantity)) : Service Price Quantity → Prop
  | inside (same : RingQueue.items pricer = RingQueue.items service.pricer) (holds : Holds event pricer.put)
      (room : ¬ Full service.pricer) : Pushed service event pricer { service with pricer }
  | accepted (more : RingQueue.items pricer = RingQueue.items service.pricer ++ [event]) (idle : pricer.put = .outside)
      (room : ¬ Full service.pricer) : Pushed service event pricer
        { service with pricer, parser := .pop, offered := service.offered ++ [(event, true)] }
  | dropped (same : RingQueue.items pricer = RingQueue.items service.pricer) (idle : pricer.put = .outside)
      (full : Full service.pricer) : Pushed service event pricer
        { service with pricer, parser := .pop, offered := service.offered ++ [(event, false)] }

omit [LinearOrder Price] [Zero Quantity] [DecidableEq Quantity] [Zero Price] in
theorem push_pushed {event : BinanceMarketEvent Price Quantity} {pricer : Basic.System (BinanceMarketEvent Price Quantity)}
    (place : service.parser = .push event) (holding : Holds event service.pricer.put)
    (put : service.pricer.producer pricerCapacity event = some pricer) :
    ∃ next, service.parserStep feedCapacity pricerCapacity decode = some next ∧ Pushed service event pricer next := by
  obtain ⟨-, items, holds⟩ := put_frame put
  have held := holds holding
  have elsewhere : (∀ item headCurrent headNext, service.pricer.put ≠ .loadTail item headCurrent headNext) → ¬ Full service.pricer :=
    fun other ⟨item, headCurrent, headNext, loads, _⟩ => other item headCurrent headNext loads
  cases stage : service.pricer.put with
  | outside | write =>
    simp only [taken, stage, Option.toList_none, append_nil] at items
    refine ⟨_, ?_, .inside items held (elsewhere (by rw [stage]; exact nofun))⟩
    simp only [Service.parserStep, place, put, stage, Option.bind_eq_bind, Option.bind_some, Option.pure_def]
  | storeHead item headCurrent headNext =>
    rw [stage] at holding
    simp only [taken, stage, Option.toList_some] at items
    cases holding
    refine ⟨_, ?_, .accepted items ?_ (elsewhere (by rw [stage]; exact nofun))⟩
    · simp only [Service.parserStep, place, put, stage, Option.bind_eq_bind, Option.bind_some, Option.pure_def]
    · simp only [Basic.System.producer, stage, Option.some.injEq] at put
      rw [← put]
  | loadTail item headCurrent headNext =>
    simp only [taken, stage, Option.toList_none, append_nil] at items
    by_cases full : headNext = service.pricer.ring.tail
    · have idle : pricer.put = .outside := by
        simp only [Basic.System.producer, stage, if_pos full, Option.some.injEq] at put
        rw [← put]
      refine ⟨_, ?_, .dropped items idle ⟨item, headCurrent, headNext, stage, full⟩⟩
      simp only [Service.parserStep, place, put, stage, idle, Option.bind_eq_bind, Option.bind_some, Option.pure_def]
    · have ahead : pricer.put = .write item headCurrent headNext := by
        simp only [Basic.System.producer, stage, if_neg full, Option.some.injEq] at put
        rw [← put]
      have room : ¬ Full service.pricer := by
        rintro ⟨other, current, next, loads, behind⟩
        cases stage.symm.trans loads
        exact full behind
      refine ⟨_, ?_, .inside items held room⟩
      simp only [Service.parserStep, place, put, stage, ahead, Option.bind_eq_bind, Option.bind_some, Option.pure_def]

theorem Pushed.valid {event : BinanceMarketEvent Price Quantity} {pricer : Basic.System (BinanceMarketEvent Price Quantity)}
    {next : Service Price Quantity} (pushed : Pushed service event pricer next)
    (valid : Valid feedCapacity pricerCapacity data decode service) (place : service.parser = .push event)
    (queue : RingQueue.Valid pricerCapacity pricer) (popped : pricer.popped = service.pricer.popped) :
    Valid feedCapacity pricerCapacity data decode next := by
  obtain ⟨offered, -⟩ : service.offered.map Prod.fst ++ [event] = service.parsed ∧ Holds event service.pricer.put :=
    valid.parser_at place
  have accepted := valid.accepted
  cases pushed with
  | inside same holds room =>
    refine valid.with_push queue popped (same.trans accepted) ?_
    unfold ParserAt
    rw [place]
    exact ⟨offered, holds⟩
  | accepted more idle room =>
    refine valid.with_push queue popped ?_ ⟨?_, idle⟩
    · rw [more, accepted, filter_append, map_append]
      rfl
    · rw [map_append]
      exact offered
  | dropped same idle full =>
    refine valid.with_push queue popped ?_ ⟨?_, idle⟩
    · rw [same, accepted, filter_append, map_append]
      exact (append_nil _).symm
    · rw [map_append]
      exact offered

private theorem push_step (valid : Valid feedCapacity pricerCapacity data decode service) {event : BinanceMarketEvent Price Quantity}
    (place : service.parser = .push event) : ∃ next, service.parserStep feedCapacity pricerCapacity decode = some next ∧
      Valid feedCapacity pricerCapacity data decode next := by
  obtain ⟨-, holding⟩ : service.offered.map Prod.fst ++ [event] = service.parsed ∧ Holds event service.pricer.put :=
    valid.parser_at place
  obtain ⟨pricer, put, queue⟩ := RingQueue.producer_valid valid.pricer event
  obtain ⟨next, moved, pushed⟩ : ∃ next, service.parserStep feedCapacity pricerCapacity decode = some next ∧
    Pushed service event pricer next := push_pushed place holding put
  exact ⟨next, moved, pushed.valid valid place queue (put_frame put).1⟩

private theorem parser_valid (valid : Valid feedCapacity pricerCapacity data decode service) (running : service.terminated = false) :
    ∃ next, service.parserStep feedCapacity pricerCapacity decode = some next ∧
      Valid feedCapacity pricerCapacity data decode next := by
  cases place : service.parser with
  | push event => exact push_step valid place
  | pop =>
    obtain ⟨feed, popped, ring⟩ := RingHandOver.pop_valid valid.feed
    cases stage : service.feed.consumer with
    | reading item => exact read_step valid running place stage
    | outside | loadHead | storeTail | clearing =>
      have moved : service.parserStep feedCapacity pricerCapacity decode = some { service with feed } := by
        simp only [Service.parserStep, place, stage, popped, Option.bind_eq_bind, Option.bind_some, Option.pure_def]
      refine ⟨_, moved, unread_step valid popped ring ?_⟩
      simp only [read, stage]

private theorem handle_valid (valid : Valid feedCapacity pricerCapacity data decode service)
    (moved : BinanceMarketEvent Price Quantity → BinanceMarketEvent Price Quantity) :
    ∃ next, service.handleEvents pricerCapacity moved = some next ∧ Valid feedCapacity pricerCapacity data decode next := by
  have handled := valid.handled
  cases holding : service.event with
  | some event =>
    have step : service.handleEvents pricerCapacity moved = some { service with
        event := none
        book := service.book.bind fun book => handleEvent book event
        handled := service.handled ++ [event] } := by
      simp only [Service.handleEvents, holding]
    rw [holding, Option.toList_some] at handled
    refine ⟨_, step, { valid with handled := ?_, book := ?_ }⟩
    · exact (append_nil _).trans handled
    · dsimp only
      rw [valid.book, bookOf, bookOf, foldlM_append, Option.bind_eq_bind]
      refine congrArg _ (funext fun book => ?_)
      exact (bind_pure _).symm
  | none =>
    obtain ⟨pricer, taken, queue⟩ := RingQueue.consumer_valid moved valid.pricer
    obtain ⟨put, accepted, popped⟩ := take_frame taken
    rw [holding, Option.toList_none, append_nil] at handled
    have place : ∀ event, ParserAt { service with pricer, event } := by
      intro event
      have known := valid.parser
      unfold ParserAt at known ⊢
      dsimp only
      rw [put]
      exact known
    have items : RingQueue.items pricer = (service.offered.filter Prod.snd).map Prod.fst := by
      rw [RingQueue.items, accepted]
      exact valid.accepted
    cases stage : service.pricer.pop with
    | storeTail event tailCurrent =>
      have step : service.handleEvents pricerCapacity moved = some { service with pricer, event := some event } := by
        simp only [Service.handleEvents, holding, taken, stage, Option.bind_eq_bind, Option.bind_some, Option.pure_def]
      simp only [returned, stage, Option.toList_some] at popped
      refine ⟨_, step, { valid with pricer := queue, parser := place _, accepted := items, handled := ?_ }⟩
      dsimp only
      rw [popped, handled, Option.toList_some]
    | outside | loadHead | read =>
      have step : service.handleEvents pricerCapacity moved = some { service with pricer } := by
        simp only [Service.handleEvents, holding, taken, stage, Option.bind_eq_bind, Option.bind_some, Option.pure_def]
      simp only [returned, stage, Option.toList_none, append_nil] at popped
      refine ⟨_, step, { valid with pricer := queue, parser := place _, accepted := items, handled := ?_ }⟩
      dsimp only
      rw [popped, holding, handled, Option.toList_none, append_nil]

theorem step_valid (valid : Valid feedCapacity pricerCapacity data decode service)
    (moved : BinanceMarketEvent Price Quantity → BinanceMarketEvent Price Quantity) (turn : Turn) :
    ∃ next, service.step feedCapacity pricerCapacity data decode moved turn = some next ∧
      Valid feedCapacity pricerCapacity data decode next := by
  cases running : service.terminated with
  | true =>
    have ended : service.step feedCapacity pricerCapacity data decode moved turn = some service := by
      simp only [Service.step, running, if_true]
    exact ⟨_, ended, valid⟩
  | false =>
    simp only [Service.step, running, Bool.false_eq_true, if_false]
    cases turn with
    | connector => exact connect_valid valid
    | parser => exact parser_valid valid running
    | pricer => exact handle_valid valid moved

end Steps

private theorem names_apart {first second stream : List Char} (apart : ¬ first <+: second ∧ ¬ second <+: first)
    (named : first <+: stream) : ¬ second <+: stream := fun other =>
  Or.elim ( prefix_or_prefix_of_prefix named other) apart.1 apart.2

private theorem parseEventData_depth_iff {Data Price Quantity : Type} {parsers : BinanceParserJson Data Price Quantity} {stream : List Char}
    {data : Data} {bids asks : List (Price × Quantity)} : parseEventData parsers stream data = some (.depthUpdate bids asks) ↔
      "depth".toList <+: removeSymbol stream ∧ parsers.parseDepthUpdate data = some (bids, asks) := by
  have other {name : List Char} {event : Option Unit} {kind : BinanceMarketEvent Price Quantity}
      (apart : ¬ name <+: "depth".toList ∧ ¬ "depth".toList <+: name) (different : kind ≠ .depthUpdate bids asks)
      (named : name.isPrefixOf (removeSymbol stream)) : (event.map fun _ => kind) = some (.depthUpdate bids asks) ↔
        "depth".toList <+: removeSymbol stream ∧ parsers.parseDepthUpdate data = some (bids, asks) := by
    refine iff_of_false (fun parsed => ?_) fun both => names_apart apart ( isPrefixOf_iff_prefix.mp named) both.1
    obtain ⟨-, -, same⟩ := Option.map_eq_some_iff.mp parsed
    exact different same
  unfold parseEventData
  dsimp only
  split
  case isTrue named => exact other (by decide) nofun named
  split
  case isTrue named => exact other (by decide) nofun named
  split
  case isTrue named => exact other (by decide) nofun named
  split
  case isTrue named => exact other (by decide) nofun named
  split
  case isTrue named =>
    rw [Option.map_eq_some_iff]
    constructor
    · rintro ⟨update, parsed, same⟩
      cases same
      exact ⟨ isPrefixOf_iff_prefix.mp named, parsed⟩
    · exact fun both => ⟨(bids, asks), both.2, rfl⟩
  case isFalse named =>
    exact iff_of_false nofun fun both => named ( isPrefixOf_iff_prefix.mpr both.1)

/-- What the service makes of its feed. -/
structure Delivered [Zero Price] (data : List Buffer) (decode : Buffer → Option (BinanceMarketEvent Price Quantity))
    (service : Service Price Quantity) : Prop where
  read : service.feed.messages <+: data
  parsed : service.parsed.map some <+: service.feed.messages.map decode
  alive : service.terminated = false → service.parsed.length = service.feed.messages.length
  offered : service.offered.map Prod.fst <+: service.parsed
  waiting : service.parsed.length ≤ service.offered.length + 1
  handled : service.handled <+: (service.offered.filter Prod.snd).map Prod.fst
  book : service.book = bookOf service.handled
  faithful : DepthBookRefinement.Within (service.handled.flatMap updates) →
    DepthBookRefinement.NeverReturns (service.handled.flatMap updates) → ∃ book, service.book = some book ∧
      DepthBookRefinement.Faithful book (DepthLadder.run (service.handled.flatMap updates))

section Runs

variable [Zero Price] {feedCapacity pricerCapacity : Capacity} {data : List Buffer}
  {decode : Buffer → Option (BinanceMarketEvent Price Quantity)} {service : Service Price Quantity}

omit [LinearOrder Price] [Zero Quantity] [DecidableEq Quantity] [Zero Price] in
theorem ConnectorAt.committed (place : ConnectorAt data service) : service.feed.committed <+: data := by
  have read := take_prefix service.readPost data
  unfold ConnectorAt at place
  cases stage : service.connector with
  | getItem | getData =>
    rw [stage] at place
    rw [place.1]
    exact read
  | commit =>
    rw [stage] at place
    obtain ⟨item, entry, -, -, same⟩ := place
    rw [same] at read
    exact (prefix_append _ _).trans read
  | stopped =>
    rw [stage] at place
    have same : service.feed.committed = data.take service.readPost := place
    rw [same]
    exact read

theorem Valid.delivered (valid : Valid feedCapacity pricerCapacity data decode service) : Delivered data decode service := by
  have offered : service.offered.map Prod.fst <+: service.parsed ∧ service.parsed.length ≤ service.offered.length + 1 := by
    have place := valid.parser
    unfold ParserAt at place
    cases stage : service.parser with
    | pop =>
      rw [stage] at place
      rw [← place.1, length_map]
      exact ⟨prefix_rfl, Nat.le_succ _⟩
    | push event =>
      rw [stage] at place
      rw [← place.1, length_append, length_map]
      exact ⟨prefix_append _ _, le_rfl⟩
  refine ⟨valid.feed.ordered.trans valid.connector.committed, valid.decoded, valid.alive, offered.1, offered.2, ?_, valid.book, ?_⟩
  · rw [← valid.accepted]
    have queued := valid.pricer.popped
    rw [← valid.handled] at queued
    exact (prefix_append _ _).trans queued
  · intro within fresh
    obtain ⟨book, reached, represents⟩ := DepthBookRefinement.handleEvents_represents within fresh
    refine ⟨book, ?_, represents.faithful⟩
    rw [valid.book, bookOf, handleEvent_run]
    exact reached

private theorem Delivered.of_handled (delivered : Delivered data decode service) {event : BinanceMarketEvent Price Quantity}
    (among : event ∈ service.handled) : ∃ message ∈ data, decode message = some event := by
  obtain ⟨entry, taken, rfl⟩ := mem_map.mp (delivered.handled.subset among)
  have offered := delivered.offered.subset (mem_map_of_mem (mem_of_mem_filter taken))
  have parsed := delivered.parsed.subset (mem_map_of_mem offered)
  obtain ⟨message, read, same⟩ := mem_map.mp parsed
  exact ⟨message, delivered.read.subset read, same⟩

theorem run_depth_streams {Data : Type} (json : Buffer → Option (List Char × Data)) (parsers : BinanceParserJson Data Price Quantity)
    (feedCapacity pricerCapacity : Capacity) (data : List Buffer)
    (moved : BinanceMarketEvent Price Quantity → BinanceMarketEvent Price Quantity) (turns : List Turn) :
    ∃ service, turns.foldlM (Service.step feedCapacity pricerCapacity data (parse json parsers) moved)
      (Service.initial feedCapacity pricerCapacity) = some service ∧ service.book = bookOf service.handled ∧
      ∀ bids asks, .depthUpdate bids asks ∈ service.handled → ∃ message ∈ data, ∃ stream content,
        json message = some (stream, content) ∧ "depth".toList <+: removeSymbol stream ∧
          parsers.parseDepthUpdate content = some (bids, asks) := by
  obtain ⟨service, reached, valid⟩ := Runs.foldlM_succeeds
    (fun service turn (valid : Valid feedCapacity pricerCapacity data (parse json parsers) service) => step_valid valid moved turn)
    turns initial_valid
  refine ⟨service, reached, valid.book, fun bids asks among => ?_⟩
  obtain ⟨message, read, parsed⟩ := valid.delivered.of_handled among
  obtain ⟨⟨stream, content⟩, known, same⟩ := Option.bind_eq_some_iff.mp parsed
  exact ⟨message, read, stream, content, known, parseEventData_depth_iff.mp same⟩

/-- Where `put` loads the tail, the pricer's queue has room. -/
def HasRoom (pricerCapacity : Capacity) (service : Service Price Quantity) (turn : Turn) : Prop :=
  turn = .parser → service.terminated = false → ∀ item headCurrent headNext,
    service.pricer.put = .loadTail item headCurrent headNext →
      service.pricer.accepted.length + 1 < service.pricer.popped.length + pricerCapacity.slots

/-- Every event that was offered was taken, and the book is that of the first entries of the feed. -/
structure Complete [Zero Price] (data : List Buffer) (decode : Buffer → Option (BinanceMarketEvent Price Quantity))
    (service : Service Price Quantity) : Prop where
  offered : ∀ entry ∈ service.offered, entry.2 = true
  handled : service.handled.map some <+: data.map decode
  book : service.book = bookOf service.handled

theorem full_iff (valid : Valid feedCapacity pricerCapacity data decode service) (running : service.terminated = false) :
    ¬ Full service.pricer ↔ HasRoom pricerCapacity service .parser := by
  have atMost := valid.pricer.room
  constructor
  · intro room _ _ item headCurrent headNext loads
    have begun := valid.pricer.loadTail_at loads
    have apart := mt (RingQueue.full_iff begun valid.pricer).mpr fun full => room ⟨item, headCurrent, headNext, loads, full⟩
    omega
  · intro room full
    obtain ⟨item, headCurrent, headNext, loads, behind⟩ := full
    have begun := valid.pricer.loadTail_at loads
    have reached := (RingQueue.full_iff begun valid.pricer).mp behind
    have less := room rfl running item headCurrent headNext loads
    omega

theorem Valid.complete (valid : Valid feedCapacity pricerCapacity data decode service)
    (kept : ∀ entry ∈ service.offered, entry.2 = true) : Complete data decode service := by
  have delivered := valid.delivered
  refine ⟨kept, ?_, delivered.book⟩
  have handled := delivered.handled
  rw [filter_eq_self.mpr kept] at handled
  exact ((handled.trans delivered.offered).map some).trans (delivered.parsed.trans (delivered.read.map decode))

end Runs
end FinanceTech.Proofs.FeedDelivery
