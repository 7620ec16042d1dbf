import FinanceTech.Proofs.BufferHandOver
import FinanceTech.Proofs.FeedReplay

/-! What the keeper's books have once it has processed the messages of a feed. All
messages are parsed into one event, but where each is whole, none of it gets into
the book of another symbol. -/

namespace FinanceTech.Proofs.FeedBooks
open List TradingSystem
open Library
open Library.SortedMap (Map)
open BufferHandOver FeedReplay

variable {Price Quantity : Type} [LinearOrder Price] [Zero Quantity] [DecidableEq Quantity]

/-- A message that the feed of depth updates sends: the result of the subscription,
or an update of a symbol with a book, with both of its sides. -/
inductive Subscribed : Option (Payload Price Quantity) → Prop
  | result : Subscribed none
  | depthUpdate (symbol : String) (eventTime : Int) (bids asks : List (Price × Quantity)) (ticker : Bool)
    (known : symbol ∈ ExchangeBookKeeper.tickers) :
    Subscribed (some ⟨some "depthUpdate", some symbol, some eventTime, some bids, some asks, ticker⟩)

def updateOf (symbol : String) : Option (Payload Price Quantity) → Option (Event Price Quantity)
  | some ⟨some "depthUpdate", some other, _, some bids, some asks, _⟩ =>
    if other = symbol then some ⟨.depthUpdate, ⟨levels bids, levels asks⟩⟩ else none
  | _ => none

structure Separate (messages : List (Option (Payload Price Quantity))) (keeper : ExchangeBookKeeper Price Quantity) : Prop where
  known : ∀ symbol ∈ ExchangeBookKeeper.tickers, keeper.orderBooksByTicker.find? symbol =
    some ((messages.filterMap (updateOf symbol)).foldl PriceLevelBook.processEvent {})
  unknown : ∀ symbol ∉ ExchangeBookKeeper.tickers, keeper.orderBooksByTicker.find? symbol = none

omit [Zero Quantity] [DecidableEq Quantity] in
private theorem find?_create (symbol : String) : (ExchangeBookKeeper.create : ExchangeBookKeeper Price Quantity).orderBooksByTicker.find? symbol =
    if symbol ∈ ExchangeBookKeeper.tickers then some {} else none := by
  simp only [ExchangeBookKeeper.create, ExchangeBookKeeper.tickers, foldl_cons, foldl_nil, Map.find?_emplace, mem_cons,
    not_mem_nil, or_false]
  by_cases first : symbol = "BTCUSDT"
  · simp [first, Map.find?, Map.empty]
  · by_cases second : symbol = "XRPUSDT"
    · simp [second, Map.find?, Map.empty]
    · by_cases third : symbol = "MEMEUSDT"
      · simp [third, Map.find?, Map.empty]
      · simp [first, second, third, Map.find?, Map.empty]

private theorem separate_create : Separate [] (ExchangeBookKeeper.create : ExchangeBookKeeper Price Quantity) where
  known symbol listed := by
    rw [find?_create, if_pos listed]
    rfl
  unknown symbol unlisted := by rw [find?_create, if_neg unlisted]

theorem Separate.process {messages : List (Option (Payload Price Quantity))} {keeper : ExchangeBookKeeper Price Quantity}
    (separate : Separate messages keeper) {message : Option (Payload Price Quantity)} (subscribed : Subscribed message) :
    ∃ next, keeper.process message = some next ∧ Separate (messages ++ [message]) next := by
  cases subscribed with
  | result =>
    refine ⟨_, rfl, fun symbol listed => ?_, separate.unknown⟩
    have none_ : updateOf symbol (none : Option (Payload Price Quantity)) = none := rfl
    rw [filterMap_append, filterMap_cons_none none_, filterMap_nil, append_nil]
    exact separate.known symbol listed
  | depthUpdate symbol eventTime bids asks ticker listed =>
    have book := separate.known symbol listed
    let event : MarketEvent Price Quantity :=
      { keeper.event with type := .depthUpdate, symbol, eventTime, depth := ⟨levels bids, levels asks⟩ }
    let held := (messages.filterMap (updateOf symbol)).foldl PriceLevelBook.processEvent {}
    refine ⟨{ orderBooksByTicker := keeper.orderBooksByTicker.insertOrAssign symbol (held.processEvent event.toEvent), event },
      ?_, fun other known => ?_, fun other unlisted => ?_⟩
    · simp only [ExchangeBookKeeper.process, parse]
      simp [book, held, event]
    · simp only [Library.SortedMap.Map.find?_insertOrAssign, filterMap_append, foldl_append]
      by_cases same : other = symbol
      · simp [same, updateOf, held, event]
      · rw [if_neg same, separate.known other known]
        simp [updateOf, Ne.symm same]
    · simp only [Library.SortedMap.Map.find?_insertOrAssign]
      have apart : other ≠ symbol := fun same => unlisted (same ▸ listed)
      rw [if_neg apart]
      exact separate.unknown other unlisted

private theorem process_separate {messages : List (Option (Payload Price Quantity))} (subscribed : ∀ message ∈ messages, Subscribed message) :
    ∃ keeper, messages.foldlM ExchangeBookKeeper.process ExchangeBookKeeper.create = some keeper ∧ Separate messages keeper := by
  induction messages using List.reverseRecOn with
  | nil => exact ⟨_, rfl, separate_create⟩
  | append_singleton messages message ih =>
    obtain ⟨keeper, ran, separate⟩ := ih fun other inside => subscribed other (mem_append_left _ inside)
    obtain ⟨next, processed, kept⟩ := separate.process (subscribed message (mem_append_right _ (mem_singleton_self message)))
    refine ⟨next, ?_, kept⟩
    rw [Runs.foldlM_concat_some ran]
    exact processed

/-- In every run in which the keeper keeps up with a feed of depth updates, the book
of each symbol is what the updates of this symbol make, of the messages parsed so
far and in their order. -/
theorem books_follow_feed {μ : Type} (decode : μ → Option (Payload Price Quantity)) (turns : List (Turn μ))
    (keeps : Runs.AtEveryStep (Pipeline.step decode) KeepsUp {} turns)
    (subscribed : ∀ message ∈ (Pipeline.run decode turns).received, Subscribed (decode message)) :
    let pipeline := Pipeline.run decode turns
    let done := (pipeline.received.take pipeline.parsed.length).map decode
    ∃ keeper, pipeline.keeper = some keeper ∧ ∀ symbol ∈ ExchangeBookKeeper.tickers,
      keeper.orderBooksByTicker.find? symbol =
        some ⟨replay (bids (done.filterMap (updateOf symbol))), replay (asks (done.filterMap (updateOf symbol)))⟩ := by
  intro pipeline done
  have upToDate := (throughout_upToDate_iff decode turns).mpr keeps turns (prefix_refl turns)
  have whole : ∀ message ∈ done, Subscribed message := by
    intro message inside
    obtain ⟨received, taken, rfl⟩ := mem_map.mp inside
    exact subscribed received (mem_of_mem_take taken)
  obtain ⟨keeper, ran, separate⟩ := process_separate whole
  refine ⟨keeper, ?_, fun symbol listed => ?_⟩
  · rw [upToDate.keeper, ← ran, foldlM_map]
  · rw [separate.known symbol listed, processEvent_replays]

/-- An update of both sides. -/
def update (symbol : String) (bids asks : List (Int × Int)) : Payload Int Int :=
  ⟨some "depthUpdate", some symbol, some 1, some bids, some asks, false⟩

def threeUpdates : List (Payload Int Int) :=
  [update "BTCUSDT" [(100, 5), (99, 2)] [(101, 3)], update "XRPUSDT" [(7, 1)] [(8, 4), (9, 6)],
    update "BTCUSDT" [(100, 0)] [(101, 1), (102, 2)]]

/-- Three updates of two symbols wait in the buffers before the first one is parsed. -/
def threeTurns : List (Turn (Payload Int Int)) :=
  threeUpdates.flatMap (fun message => [.clear, .read (some message), .push]) ++ [.pop, .parse, .pop, .parse, .pop, .parse]

theorem books_follow_feed_three : ∃ keeper, (Pipeline.run some threeTurns).keeper = some keeper ∧
    keeper.orderBooksByTicker.find? "BTCUSDT" =
      some ⟨replay [(100, 5), (99, 2), (100, 0)], replay [(101, 3), (101, 1), (102, 2)]⟩ ∧
    keeper.orderBooksByTicker.find? "XRPUSDT" = some ⟨replay [(7, 1)], replay [(8, 4), (9, 6)]⟩ := by
  have keeps : Runs.AtEveryStep (Pipeline.step some) KeepsUp {} threeTurns :=
    ⟨fun _ _ _ => by decide, keepsUp_of_ne nofun, keepsUp_of_ne nofun, fun _ _ _ => by decide, keepsUp_of_ne nofun, keepsUp_of_ne nofun,
      fun _ _ _ => by decide, keepsUp_of_ne nofun, keepsUp_of_ne nofun, keepsUp_of_ne nofun, keepsUp_of_ne nofun,
      keepsUp_of_ne nofun, keepsUp_of_ne nofun, keepsUp_of_ne nofun, keepsUp_of_ne nofun, trivial⟩
  have received : (Pipeline.run some threeTurns).received = threeUpdates := by decide +kernel
  have parsed : (Pipeline.run some threeTurns).parsed.length = 3 := by decide +kernel
  have updates : (threeUpdates.take 3).map some = threeUpdates.map some := rfl
  obtain ⟨keeper, ran, books⟩ := books_follow_feed some _ keeps fun other among => by
    rw [received] at among
    simp only [threeUpdates, mem_cons, not_mem_nil, or_false] at among
    rcases among with rfl | rfl | rfl
    · exact .depthUpdate _ _ _ _ _ (by decide)
    · exact .depthUpdate _ _ _ _ _ (by decide)
    · exact .depthUpdate _ _ _ _ _ (by decide)
  rw [received, parsed, updates] at books
  exact ⟨keeper, ran, books "BTCUSDT" (by decide), books "XRPUSDT" (by decide)⟩

end FinanceTech.Proofs.FeedBooks
