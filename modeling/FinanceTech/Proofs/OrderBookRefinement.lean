import FinanceTech.BookFeed
import FinanceTech.Library.Runs

/-! The order book refines the feed it is built from. One step of the builder
is one step of the feed, so after any run the book holds what the feed says,
and what was published is what the feed has accepted. -/

namespace FinanceTech.Proofs.OrderBookRefinement
open Library Trading

/-- What a book holds, as the depth of its market. -/
def bookDepth (book : OrderBook) : MarketDepth
  | (side, price) => (book.levels side).find? price

structure Refines (builder : BookBuilder) (state : BookState) (feed : Feed) : Prop where
  valid : state.book.valid = feed.live
  depth : bookDepth state.book = feed.depth
  sequence : state.book.sequenceNumber = feed.sequence
  published : List.Forall₂ (fun event publication => event.Tells builder.instrument publication)
    state.published feed.publications

theorem applyUpdate_invalid {book : OrderBook} (invalid : book.valid = false) (update : BookUpdate) :
    book.applyUpdate update = (false, book) := by
  rw [OrderBook.applyUpdate, invalid]
  rfl

theorem applyUpdate_gap {book : OrderBook} {update : BookUpdate} (gap : update.sequence ≠ book.sequenceNumber + 1) :
    book.applyUpdate update = (false, { book with valid := false }) := by
  cases valid : book.valid with
  | false =>
    rw [applyUpdate_invalid valid, ← valid]
  | true =>
    rw [OrderBook.applyUpdate, valid]
    exact if_pos gap

theorem setLevels_levels (book : OrderBook) (levels : Levels) (side other : Side) :
    (book.setLevels levels side).levels other = if other = side then levels else book.levels other := by
  cases side <;> cases other <;> rfl

private theorem setLevels_valid (book : OrderBook) (levels : Levels) (side : Side) :
    (book.setLevels levels side).valid = book.valid := by cases side <;> rfl

/-- The levels of one side after an update of it. -/
theorem written_find? (levels : Levels) (price : Price) (quantity : Quantity) :
    (if quantity.isZero then levels.erase price else levels.insertOrAssign price quantity).find? =
      Depth.write levels.find? price quantity := by
  simp only [ScaledValue.isZero_iff]
  exact levels.find?_write price quantity

section Continues

variable {book : OrderBook} {update : BookUpdate}

/-- The update that continues the book. -/
theorem applyUpdate_continues (valid : book.valid = true) (next : update.sequence = book.sequenceNumber + 1) :
    book.applyUpdate update = (true, { book.setLevels (if update.quantity.isZero then
        (book.levels update.side).erase update.price
      else (book.levels update.side).insertOrAssign update.price update.quantity) update.side with
        sequenceNumber := update.sequence }) := by
  rw [OrderBook.applyUpdate, valid]
  exact if_neg (not_not.mpr next)

/-- It writes one price of its side. -/
theorem applyUpdate_levels (valid : book.valid = true) (next : update.sequence = book.sequenceNumber + 1) (side : Side) :
    ((book.applyUpdate update).2.levels side).find? =
      if side = update.side then Depth.write (book.levels side).find? update.price update.quantity
      else (book.levels side).find? := by
  have numbered : ∀ (other : OrderBook) (sequence : SequenceNumber),
      ({ other with sequenceNumber := sequence } : OrderBook).levels side = other.levels side := by
    intro other sequence
    cases side <;> rfl
  rw [applyUpdate_continues valid next, numbered, setLevels_levels]
  by_cases same : side = update.side
  · cases same
    rw [if_pos rfl, if_pos rfl, written_find?]
  · rw [if_neg same, if_neg same]

theorem applyUpdate_next (valid : book.valid = true) (next : update.sequence = book.sequenceNumber + 1) :
    (book.applyUpdate update).1 = true ∧ (book.applyUpdate update).2.valid = true ∧
      (book.applyUpdate update).2.sequenceNumber = update.sequence ∧
      bookDepth (book.applyUpdate update).2 = (bookDepth book).write update.write.1 update.write.2 := by
  have applied := applyUpdate_continues valid next
  refine ⟨by rw [applied], ?_, by rw [applied], ?_⟩
  · rw [applied]
    exact (setLevels_valid book _ update.side).trans valid
  · funext ⟨side, price⟩
    rw [bookDepth, applyUpdate_levels valid next]
    by_cases same : side = update.side
    · cases same
      rw [if_pos rfl]
      by_cases place : price = update.price
      · rw [place, Depth.write_self]
        exact (Depth.write_self _ _ _).symm
      · rw [Depth.write_ne _ place, Depth.write_ne _ fun both => place (congrArg Prod.snd both), bookDepth]
    · rw [if_neg same, Depth.write_ne _ fun both => same (congrArg Prod.fst both), bookDepth]

end Continues

theorem bestBid_best (book : OrderBook) : Best (· < ·) (fun price => bookDepth book (.buy, price))
    (book.bestBid.elim 0 BookLevel.price) (book.bestBid.elim 0 BookLevel.quantity) := by
  rw [OrderBook.bestBid]
  cases best : book.bids.last? with
  | none => exact .inr ⟨fun other => SortedMap.Map.last?_eq_none best other, rfl, rfl⟩
  | some entry => exact .inl (SortedMap.Map.last?_greatest best)

theorem bestAsk_best (book : OrderBook) : Best (· > ·) (fun price => bookDepth book (.sell, price))
    (book.bestAsk.elim 0 BookLevel.price) (book.bestAsk.elim 0 BookLevel.quantity) := by
  rw [OrderBook.bestAsk]
  cases best : book.asks.first? with
  | none => exact .inr ⟨fun other => SortedMap.Map.first?_eq_none best other, rfl, rfl⟩
  | some entry => exact .inl (SortedMap.Map.first?_least best)

private theorem publishMarketEvent_tells (builder : BookBuilder) (book : OrderBook) (sequence : SequenceNumber)
    (exchangeTimestamp receiveTimestamp : Timestamp) :
    (builder.publishMarketEvent book sequence exchangeTimestamp receiveTimestamp).Tells builder.instrument
      ⟨sequence, exchangeTimestamp, receiveTimestamp, bookDepth book⟩ :=
  ⟨rfl, rfl, rfl, rfl, bestBid_best book, bestAsk_best book⟩

/-- Publishing on both sides, when the book holds what the feed says. -/
theorem Refines.publish {builder : BookBuilder} {state : BookState} {feed : Feed} {book : OrderBook} {told : Feed}
    (refines : Refines builder state feed) (before : told.publications = feed.publications) (valid : book.valid = told.live)
    (same : bookDepth book = told.depth) (sequence : book.sequenceNumber = told.sequence)
    (exchangeTimestamp receiveTimestamp : Timestamp) :
    Refines builder ⟨book, state.published ++
        [builder.publishMarketEvent book book.sequenceNumber exchangeTimestamp receiveTimestamp]⟩
      (told.publish exchangeTimestamp receiveTimestamp) := by
  refine ⟨valid, same, sequence, ?_⟩
  rw [Feed.publish, before, ← same, ← sequence]
  exact List.rel_append refines.published (.cons (publishMarketEvent_tells builder book _ _ _) .nil)

private theorem accepted_sequence (feed : Feed) (update : BookUpdate) :
    ({ feed with accepted := feed.accepted ++ [update] } : Feed).sequence = feed.sequence + 1 := by
  rw [Feed.sequence, Feed.sequence, List.length_append, List.length_singleton, UInt64.ofNat_add, UInt64.add_assoc]
  rfl

private theorem accepted_depth (feed : Feed) (update : BookUpdate) : ({ feed with accepted := feed.accepted ++ [update] } : Feed).depth =
    feed.depth.write update.write.1 update.write.2 := by
  rw [Feed.depth, List.map_append, Depth.folded_append]
  rfl

private theorem step_refines {builder : BookBuilder} {state : BookState} {feed : Feed} (event : BookEvent)
    (refines : Refines builder state feed) : Refines builder (state.step builder event) (feed.step builder.instrument event) := by
  cases event with
  | snapshot sequence bids asks exchangeTimestamp receiveTimestamp =>
    let told : Feed := { feed with snapshot := Feed.depthOf bids asks, start := sequence, accepted := [], live := true }
    have same : bookDepth (state.book.replace sequence bids asks) = told.depth := by
      funext ⟨side, price⟩
      cases side <;> rfl
    have numbered : (state.book.replace sequence bids asks).sequenceNumber = told.sequence := (UInt64.add_zero sequence).symm
    exact @Refines.publish builder state feed _ told refines rfl rfl same numbered exchangeTimestamp receiveTimestamp
  | clear =>
    refine ⟨rfl, ?_, rfl, refines.published⟩
    funext ⟨side, price⟩
    cases side <;> rfl
  | update update receiveTimestamp =>
    simp only [BookState.step, BookBuilder.onBookUpdate, Feed.step]
    split
    next foreign =>
      refine ⟨refines.valid, refines.depth, refines.sequence, ?_⟩
      rw [Option.toList_none, List.append_nil]
      exact refines.published
    next own =>
      by_cases accepted : feed.live = true ∧ update.sequence = feed.sequence + 1
      · obtain ⟨live, next⟩ := accepted
        have continues : update.sequence = state.book.sequenceNumber + 1 := by rw [refines.sequence, next]
        obtain ⟨applied, valid, sequence, depth⟩ := applyUpdate_next (refines.valid.trans live) continues
        have published := @Refines.publish builder state feed (state.book.applyUpdate update).2
          { feed with accepted := feed.accepted ++ [update] } refines rfl (valid.trans live.symm)
          (by rw [depth, accepted_depth, refines.depth]) (by rw [sequence, accepted_sequence, next])
          update.exchangeTimestamp receiveTimestamp
        rw [sequence] at published
        simp only [applied, if_pos (And.intro live next), Bool.not_true, Bool.false_eq_true, if_false]
        exact published
      · rw [if_neg accepted]
        have refused : state.book.applyUpdate update = (false, { state.book with valid := false }) := by
          by_cases gap : update.sequence = state.book.sequenceNumber + 1
          · have dead : state.book.valid = false := by
              rw [refines.valid]
              exact Bool.eq_false_iff.mpr fun live => accepted ⟨live, refines.sequence ▸ gap⟩
            rw [applyUpdate_invalid dead, ← dead]
          · exact applyUpdate_gap gap
        simp only [refused]
        refine ⟨rfl, refines.depth, refines.sequence, ?_⟩
        simpa using refines.published

theorem initial (builder : BookBuilder) : Refines builder {} {} := by
  refine ⟨rfl, ?_, rfl, .nil⟩
  funext ⟨side, price⟩
  cases side <;> rfl

private theorem run_refines (builder : BookBuilder) (events : List BookEvent) :
    Refines builder (BookState.run builder events) (Feed.run builder.instrument events) :=
  Runs.foldl_simulates (fun _ _ event refines => step_refines event refines) events (initial builder)

/-- What the builder does with updates it does not accept. -/
structure Refuses (builder : BookBuilder) (state : BookState) : Prop where
  foreign : ∀ update receiveTimestamp, update.instrument ≠ builder.instrument →
    state.step builder (.update update receiveTimestamp) = state
  gap : ∀ update receiveTimestamp, update.instrument = builder.instrument →
    update.sequence ≠ state.book.sequenceNumber + 1 →
    state.step builder (.update update receiveTimestamp) = { state with book := { state.book with valid := false } }
  silent : state.book.valid = false → ∀ events : List BookEvent, (∀ event ∈ events, event.isSnapshot = false) →
    (events.foldl (BookState.step builder) state).book.valid = false ∧
      (events.foldl (BookState.step builder) state).published = state.published

private theorem step_silent {builder : BookBuilder} {state : BookState} {event : BookEvent} (invalid : state.book.valid = false)
    (other : event.isSnapshot = false) :
    (state.step builder event).book.valid = false ∧ (state.step builder event).published = state.published := by
  cases event with
  | snapshot => cases other
  | clear => exact ⟨rfl, rfl⟩
  | update update receiveTimestamp =>
    simp only [BookState.step, BookBuilder.onBookUpdate, applyUpdate_invalid invalid]
    split <;> exact ⟨invalid, List.append_nil _⟩

theorem refuses (builder : BookBuilder) (state : BookState) : Refuses builder state where
  foreign update receiveTimestamp other := by
    simp only [BookState.step, BookBuilder.onBookUpdate, if_pos other, Option.toList_none, List.append_nil]
  gap update receiveTimestamp own gap := by
    simp [BookState.step, BookBuilder.onBookUpdate, own, applyUpdate_gap gap]
  silent invalid events none := by
    induction events generalizing state with
    | nil => exact ⟨invalid, rfl⟩
    | cons event rest ih =>
      obtain ⟨first, others⟩ := List.forall_mem_cons.mp none
      obtain ⟨dead, same⟩ := step_silent invalid first
      obtain ⟨final, published⟩ := ih (state.step builder event) dead others
      exact ⟨final, published.trans same⟩

theorem run_refines_feed (builder : BookBuilder) (events : List BookEvent) :
    Refines builder (BookState.run builder events) (Feed.run builder.instrument events) ∧
      Refuses builder (BookState.run builder events) :=
  ⟨run_refines builder events, refuses builder _⟩

end FinanceTech.Proofs.OrderBookRefinement
