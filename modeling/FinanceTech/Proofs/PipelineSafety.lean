import FinanceTech.Application
import FinanceTech.Library.Runs
import FinanceTech.Proofs.OrderBookRefinement
import FinanceTech.Proofs.OrderCreation

/-! Every order the pipeline sends is justified by the market event that was just
published. An event leads to one order at most, and only the creation of that
order writes to the gateway. -/

namespace FinanceTech.Proofs.PipelineSafety
open Library Trading OrderCreation OrderBookRefinement

def OppositeBest (book : OrderBook) : Side → Price → Prop
  | .buy, price => book.asks.find? price ≠ none ∧ ∀ other, book.asks.find? other ≠ none → other = price ∨ price < other
  | .sell, price => book.bids.find? price ≠ none ∧ ∀ other, book.bids.find? other ≠ none → other = price ∨ other < price

def Accepted (application : Application) : ApplicationEvent → Prop
  | .snapshot .. => True
  | .update update _ => update.instrument = application.bookBuilder.instrument ∧ application.orderBook.valid = true ∧
      update.sequence = application.orderBook.sequenceNumber + 1
  | .report _ => False

/-- What is true of an order sent while handling an event. -/
structure Justified (before after : Application) (event : ApplicationEvent) (order : Order) : Prop where
  accepted : Accepted before event
  published : ∃ marketEvent, after.marketEvents = before.marketEvents ++ [marketEvent]
  valid : after.orderBook.valid = true
  instrument : order.instrument = before.bookBuilder.instrument
  best : OppositeBest after.orderBook order.side order.price
  price : 0 < order.price.raw.toInt
  quantity : 0 < order.quantity.raw.toInt
  passes : Passes before.orderManager.riskManager.limits before.orderManager.position
    ⟨order.instrument, order.side, order.type, order.price, order.quantity⟩

private theorem execute_sends (executor : StrategyExecutor) (orderManager : OrderManager) (signal : Signal) (event : MarketEvent) :
    (executor.execute orderManager signal event).2.sent = orderManager.sent ∨
      ∃ order request, request.instrument = event.instrument ∧
        request.price = (if request.side = .buy then event.bestAsk else event.bestBid) ∧
        Created orderManager request order (executor.execute orderManager signal event).2 := by
  rw [StrategyExecutor.execute]
  split
  next => exact .inl rfl
  next acts =>
    let request : OrderRequest := {
      instrument := event.instrument
      side := if signal = .buy then .buy else .sell
      type := .limit
      price := if signal = .buy then event.bestAsk else event.bestBid
      quantity := executor.orderQuantity }
    obtain ⟨-, -, ⟨error, -, -, sent⟩ | ⟨order, -, created⟩⟩ := createOrder_cases orderManager request
    · exact .inl sent
    · refine .inr ⟨order, request, rfl, ?_, created⟩
      cases signal with
      | none => exact absurd rfl acts
      | buy => rfl
      | sell => rfl

private theorem published_best {builder : BookBuilder} {book : OrderBook} {sequence : SequenceNumber}
    {exchangeTimestamp receiveTimestamp : Timestamp} {side : Side} {price : Price}
    (priced : price = if side = .buy then
      (builder.publishMarketEvent book sequence exchangeTimestamp receiveTimestamp).bestAsk else
      (builder.publishMarketEvent book sequence exchangeTimestamp receiveTimestamp).bestBid)
    (positive : 0 < price.raw.toInt) : OppositeBest book side price := by
  have nonzero : price ≠ 0 := by
    rintro rfl
    exact absurd positive (by decide)
  cases side with
  | buy =>
    have tells := bestAsk_best book
    rw [if_pos rfl] at priced
    change price = book.bestAsk.elim 0 BookLevel.price at priced
    rw [← priced] at tells
    rcases tells with ⟨held, least⟩ | ⟨-, zero, -⟩
    · have live : book.asks.find? price = _ := held
      exact ⟨by rw [live]; exact Option.some_ne_none _, least⟩
    · exact absurd zero nonzero
  | sell =>
    have tells := bestBid_best book
    rw [if_neg (by decide)] at priced
    change price = book.bestBid.elim 0 BookLevel.price at priced
    rw [← priced] at tells
    rcases tells with ⟨held, greatest⟩ | ⟨-, zero, -⟩
    · have live : book.bids.find? price = _ := held
      exact ⟨by rw [live]; exact Option.some_ne_none _, greatest⟩
    · exact absurd zero nonzero

/-- What a step sends: nothing, or one order that its event justifies. -/
structure Sends (before after : Application) (event : ApplicationEvent) (orders : List Order) : Prop where
  sent : after.orderManager.sent = before.orderManager.sent ++ orders
  bounded : after.orderManager.sent.length + before.marketEvents.length ≤
    before.orderManager.sent.length + after.marketEvents.length
  justified : ∀ order ∈ orders, Justified before after event order

theorem onMarketEvent_sends {before : Application} {event : ApplicationEvent} {book : OrderBook} {sequence : SequenceNumber}
    {exchangeTimestamp receiveTimestamp : Timestamp} (accepted : Accepted before event) (valid : book.valid = true) :
    ∃ orders, Sends before ({ before with orderBook := book }.onMarketEvent
      (before.bookBuilder.publishMarketEvent book sequence exchangeTimestamp receiveTimestamp)) event orders := by
  obtain ⟨published, told⟩ : ∃ published, published =
    before.bookBuilder.publishMarketEvent book sequence exchangeTimestamp receiveTimestamp := ⟨_, rfl⟩
  rw [← told]
  rcases execute_sends before.marketEventHandler.executor before.orderManager
      (before.marketEventHandler.strategy.evaluate published) published with sent | ⟨order, request, instrument, price, created⟩
  · refine ⟨[], sent.trans (List.append_nil _).symm, ?_, by simp⟩
    have same := congrArg List.length sent
    simp only [Application.onMarketEvent, List.length_append, List.length_singleton]
    omega
  · refine ⟨[order], created.sent, ?_, ?_⟩
    · have one := congrArg List.length created.sent
      simp only [List.length_append, List.length_singleton] at one
      simp only [Application.onMarketEvent, List.length_append, List.length_singleton]
      omega
    · intro other member
      cases List.mem_singleton.mp member
      have positive := created.wellFormed.price
      have named : order.instrument = before.bookBuilder.instrument := by
        rw [created.instrument, instrument, told]
        rfl
      refine ⟨accepted, ⟨published, rfl⟩, valid, named, ?_, ?_, ?_, ?_⟩
      · rw [created.side, created.price]
        exact published_best (told ▸ price) positive
      · rw [created.price]
        exact positive
      · rw [created.quantity]
        exact created.wellFormed.quantity
      · rw [created.instrument, created.side, created.type, created.price, created.quantity]
        exact created.passes

theorem step_sends (before : Application) (event : ApplicationEvent) : ∃ orders, Sends before (before.step event) event orders := by
  cases event with
  | snapshot sequence bids asks exchangeTimestamp receiveTimestamp => exact onMarketEvent_sends trivial rfl
  | report report =>
    refine ⟨[], ?_, ?_, by simp⟩
    · rw [List.append_nil]
      rcases applyExecution_cases before.orderManager report with ⟨-, same⟩ | ⟨order, reported, -, -, -, -, -, -, -, sent⟩
      · rw [Application.step, same]
      · exact sent
    · rcases applyExecution_cases before.orderManager report with ⟨-, same⟩ | ⟨order, reported, -, -, -, -, -, -, -, sent⟩
      · rw [Application.step, same]
      · rw [Application.step, sent]
  | update update receiveTimestamp =>
    have quiet : ∀ book : OrderBook, ∃ orders, Sends before { before with orderBook := book } (.update update receiveTimestamp) orders :=
      fun book => ⟨[], (List.append_nil _).symm, le_refl _, by simp⟩
    rw [Application.step, BookBuilder.onBookUpdate]
    by_cases own : update.instrument = before.bookBuilder.instrument
    · rw [if_neg (not_not.mpr own)]
      by_cases continues : before.orderBook.valid = true ∧ update.sequence = before.orderBook.sequenceNumber + 1
      · obtain ⟨applied, valid, -, -⟩ := applyUpdate_next continues.1 continues.2
        simp only [applied, Bool.not_true, Bool.false_eq_true, if_false]
        exact onMarketEvent_sends ⟨own, continues⟩ valid
      · have refused : (before.orderBook.applyUpdate update).1 = false := by
          by_cases valid : before.orderBook.valid = true
          · rw [applyUpdate_gap fun next => continues ⟨valid, next⟩]
          · rw [applyUpdate_invalid (Bool.eq_false_iff.mpr valid)]
        simp only [refused, Bool.not_false, if_true]
        exact quiet _
    · rw [if_pos own]
      exact quiet _

private theorem step_wiring (before : Application) (event : ApplicationEvent) :
    (before.step event).bookBuilder = before.bookBuilder := by
  cases event with
  | snapshot => rfl
  | report => rfl
  | update update receiveTimestamp =>
    simp only [Application.step]
    split <;> rfl

theorem step_limits (before : Application) (event : ApplicationEvent) :
    (before.step event).orderManager.riskManager.limits = before.orderManager.riskManager.limits := by
  have handled : ∀ (application : Application) (published : MarketEvent),
      (application.onMarketEvent published).orderManager.riskManager.limits = application.orderManager.riskManager.limits := by
    intro application published
    simp only [Application.onMarketEvent, StrategyExecutor.execute]
    split
    next => rfl
    next => exact (createOrder_cases _ _).2.1
  cases event with
  | snapshot => exact handled _ _
  | report report =>
    rcases applyExecution_cases before.orderManager report with ⟨-, same⟩ | ⟨order, reported, -, -, -, -, -, -, risk, -⟩
    · rw [Application.step, same]
    · rw [Application.step, risk]
  | update update receiveTimestamp =>
    simp only [Application.step]
    split
    next => rfl
    next => exact handled _ _

/-- After any run of the application, the next event sends only justified
orders, and there are never more orders than published events. -/
theorem run_sends_justified (instrument : InstrumentId) (strategy : ImbalanceStrategy) (orderQuantity : Quantity)
    (limits : RiskLimits) (events : List ApplicationEvent) (event : ApplicationEvent) :
    let reached := (Application.construct instrument strategy orderQuantity limits).run events
    (∃ orders, Sends reached (reached.step event) event orders) ∧ reached.bookBuilder.instrument = instrument ∧
      reached.orderManager.riskManager.limits = limits ∧
      reached.orderManager.sent.length ≤ reached.marketEvents.length := by
  let wired (state : Application) : Prop := state.bookBuilder.instrument = instrument ∧
    state.orderManager.riskManager.limits = limits ∧ state.orderManager.sent.length ≤ state.marketEvents.length
  have kept : ∀ state event, wired state → wired (state.step event) := by
    intro state event ⟨builder, limited, enough⟩
    obtain ⟨orders, sends⟩ := step_sends state event
    have bounded := sends.bounded
    exact ⟨(congrArg BookBuilder.instrument (step_wiring state event)).trans builder,
      (step_limits state event).trans limited, by omega⟩
  exact ⟨step_sends _ _, Runs.foldl_preserves kept events ⟨rfl, rfl, Nat.le_refl 0⟩⟩

/-- A market with a heavy bid side, and the one order the application sends
into it. -/
example : (Application.configured.step (.snapshot 1 (SortedMap.Map.empty.insertOrAssign ⟨100⟩ ⟨9⟩)
    (SortedMap.Map.empty.insertOrAssign ⟨101⟩ ⟨1⟩) 0 0)).orderManager.sent.map (fun order => (order.side, order.price.raw)) =
      [(.buy, 101)] := by decide

end FinanceTech.Proofs.PipelineSafety
