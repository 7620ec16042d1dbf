import FinanceTech.DepthEngine
import FinanceTech.Library.Depth
import FinanceTech.Library.Runs

/-! When the arrival order of the snapshot makes no difference. Replayed updates
pass a filter on their id and live ones do not, so an old update that comes
after the snapshot is applied to a book that already has it. -/

namespace FinanceTech.Proofs.DepthSynchronisation
open List Library DepthEngine

def bookDepth (book : MarketDepthBook) : Depth (Side × Price) Quantity
  | (.buy, price) => book.bidPriceLevelMap.find? price
  | (.sell, price) => book.askPriceLevelMap.find? price

private theorem bookDepth_injective {first second : MarketDepthBook} (same : bookDepth first = bookDepth second) : first = second := by
  have bids : first.bidPriceLevelMap = second.bidPriceLevelMap :=
    SortedMap.Map.ext_find? fun price => congrFun same (.buy, price)
  have asks : first.askPriceLevelMap = second.askPriceLevelMap :=
    SortedMap.Map.ext_find? fun price => congrFun same (.sell, price)
  cases first
  cases second
  congr

def bid (level : PriceLevel) : (Side × Price) × Quantity := ((.buy, level.price), level.quantity)

def ask (level : PriceLevel) : (Side × Price) × Quantity := ((.sell, level.price), level.quantity)

/-- The levels an event lists, in the order the book takes them. -/
def writes (event : DepthEvent) : List ((Side × Price) × Quantity) := event.bids.map bid ++ event.akss.map ask

section Book

variable (book : MarketDepthBook) (level : PriceLevel)

theorem addBidPrice_depth : bookDepth (book.addBidPrice level) =
    Function.update (bookDepth book) (bid level).1 (some (bid level).2) := by
  funext ⟨side, price⟩
  cases side <;> simp [bookDepth, MarketDepthBook.addBidPrice, MarketDepthBook.addLevel, bid, Function.update_apply]

theorem addAskPrice_depth : bookDepth (book.addAskPrice level) =
    Function.update (bookDepth book) (ask level).1 (some (ask level).2) := by
  funext ⟨side, price⟩
  cases side <;> simp [bookDepth, MarketDepthBook.addAskPrice, MarketDepthBook.addLevel, ask, Function.update_apply]

private theorem removeBidPrice_depth : bookDepth (book.removeBidPrice level) = Function.update (bookDepth book) (bid level).1 none := by
  funext ⟨side, price⟩
  cases side <;> simp [bookDepth, MarketDepthBook.removeBidPrice, MarketDepthBook.removeLevel, bid, Function.update_apply]

private theorem removeAskPrice_depth : bookDepth (book.removeAskPrice level) = Function.update (bookDepth book) (ask level).1 none := by
  funext ⟨side, price⟩
  cases side <;> simp [bookDepth, MarketDepthBook.removeAskPrice, MarketDepthBook.removeLevel, ask, Function.update_apply]

theorem updateLevel_depth {add remove : MarketDepthBook → PriceLevel → MarketDepthBook}
    {place : PriceLevel → (Side × Price) × Quantity}
    (adds : ∀ book level, bookDepth (add book level) = Function.update (bookDepth book) (place level).1 (some (place level).2))
    (removes : ∀ book level, bookDepth (remove book level) = Function.update (bookDepth book) (place level).1 none)
    (quantity : (place level).2 = level.quantity) :
    bookDepth (MarketDepthBook.updateLevel add remove book level) = (bookDepth book).write (place level).1 (place level).2 := by
  unfold MarketDepthBook.updateLevel Depth.write
  rw [quantity]
  by_cases zero : level.quantity = 0
  · rw [if_neg (not_not.mpr zero), if_pos zero]
    exact removes book level
  · rw [if_pos zero, if_neg zero, ← quantity]
    exact adds book level

end Book

theorem foldl_depth {step : MarketDepthBook → PriceLevel → MarketDepthBook}
    (act : Depth (Side × Price) Quantity → (Side × Price) × Quantity → Depth (Side × Price) Quantity)
    (place : PriceLevel → (Side × Price) × Quantity)
    (acts : ∀ book level, bookDepth (step book level) = act (bookDepth book) (place level))
    (book : MarketDepthBook) (levels : List PriceLevel) :
    bookDepth (levels.foldl step book) = (levels.map place).foldl act (bookDepth book) := by
  rw [foldl_map]
  exact (foldl_hom bookDepth fun book level => (acts book level).symm).symm

private theorem handleDepthUpdate_depth (book : MarketDepthBook) (update : DepthEvent) :
    bookDepth (book.handleDepthUpdate update) = (bookDepth book).folded (writes update) := by
  unfold MarketDepthBook.handleDepthUpdate writes Depth.folded
  rw [foldl_depth (fun depth write => depth.write write.1 write.2) ask fun book level =>
      updateLevel_depth book level addAskPrice_depth removeAskPrice_depth rfl,
    foldl_depth (fun depth write => depth.write write.1 write.2) bid fun book level =>
      updateLevel_depth book level addBidPrice_depth removeBidPrice_depth rfl, foldl_append]

private theorem applySnapshot_depth (snapshot : DepthEvent) :
    bookDepth (({} : MarketDepthBook).applySnapshot snapshot) = Depth.listed (writes snapshot) := by
  have empty : bookDepth {} = fun _ => none := by
    funext ⟨side, price⟩
    cases side <;> rfl
  unfold MarketDepthBook.applySnapshot Depth.listed writes
  rw [foldl_depth (fun depth level => Function.update depth level.1 (some level.2)) ask addAskPrice_depth,
    foldl_depth (fun depth level => Function.update depth level.1 (some level.2)) bid addBidPrice_depth, empty, foldl_append]

private theorem foldl_handleDepthUpdate_depth (book : MarketDepthBook) (updates : List DepthEvent) :
    bookDepth (updates.foldl .handleDepthUpdate book) = (bookDepth book).folded (updates.flatMap writes) := by
  induction updates generalizing book with
  | nil => rfl
  | cons update rest ih => rw [foldl_cons, ih, handleDepthUpdate_depth, flatMap_cons, Depth.folded_append]

private theorem handleEvents_buffers {updates : List DepthEvent} (updating : ∀ update ∈ updates, update.type = .depthUpdate)
    {engine : Engine} (waiting : engine.status = .noReady) :
    engine.handleEvents updates = { engine with depthEvents := engine.depthEvents ++ updates } := by
  induction updates generalizing engine with
  | nil => simp [Engine.handleEvents]
  | cons update rest ih =>
    obtain ⟨first, rest_updating⟩ := forall_mem_cons.mp updating
    have turn : engine.handleEvent update = { engine with depthEvents := engine.depthEvents ++ [update] } := by
      simp [Engine.handleEvent, first, waiting]
    have still : (engine.handleEvent update).status = .noReady := by rw [turn, waiting]
    have later := ih rest_updating still
    unfold Engine.handleEvents at later ⊢
    rw [foldl_cons, later, turn]
    simp

private theorem handleEvents_live {updates : List DepthEvent} (updating : ∀ update ∈ updates, update.type = .depthUpdate)
    {engine : Engine} (ready : engine.status = .ready) :
    (engine.handleEvents updates).depthBook = updates.foldl .handleDepthUpdate engine.depthBook := by
  induction updates generalizing engine with
  | nil => rfl
  | cons update rest ih =>
    obtain ⟨first, rest_updating⟩ := forall_mem_cons.mp updating
    have moved : (engine.handleEvent update).status = .ready ∧
        (engine.handleEvent update).depthBook = engine.depthBook.handleDepthUpdate update := by
      simp [Engine.handleEvent, first, ready]
    rw [foldl_cons, ← moved.2]
    exact ih rest_updating moved.1

/-- An update that the snapshot does not contain yet. -/
def newer (snapshot update : DepthEvent) : Bool := snapshot.lastUpdateId < update.lastUpdateId

theorem handleEvents_depth {snapshot : DepthEvent} {early late : List DepthEvent} (taken : snapshot.type = .depthSnapshot)
    (updating : ∀ update ∈ early ++ late, update.type = .depthUpdate) :
    bookDepth (({} : Engine).handleEvents (early ++ snapshot :: late)).depthBook =
      (Depth.listed (writes snapshot)).folded ((early.filter (newer snapshot) ++ late).flatMap writes) := by
  obtain ⟨buffered, live⟩ := forall_mem_append.mp updating
  have waited := @handleEvents_buffers early buffered {} rfl
  unfold Engine.handleEvents at waited
  have replayed : (({} : Engine).handleEvents (early ++ snapshot :: late)).depthBook =
      (early.filter (newer snapshot) ++ late).foldl .handleDepthUpdate (({} : MarketDepthBook).applySnapshot snapshot) := by
    unfold Engine.handleEvents
    rw [foldl_append, waited, foldl_cons, foldl_append]
    let synced := Engine.handleEvent { depthEvents := [] ++ early } snapshot
    have ready : synced.status = .ready ∧ synced.depthBook =
        (early.filter (newer snapshot)).foldl .handleDepthUpdate (({} : MarketDepthBook).applySnapshot snapshot) := by
      simp [synced, Engine.handleEvent, taken]
      rfl
    rw [← ready.2]
    exact handleEvents_live live ready.1
  rw [replayed, foldl_handleDepthUpdate_depth, applySnapshot_depth]

/-- A queue in the order of its ids has the old updates in front. -/
theorem ordered_split {snapshot : DepthEvent} {updates : List DepthEvent}
    (ordered : updates.Pairwise fun first second => first.lastUpdateId ≤ second.lastUpdateId) :
    updates = (updates.filter fun update => !newer snapshot update) ++ updates.filter (newer snapshot) := by
  induction updates with
  | nil => rfl
  | cons update rest ih =>
    cases fresh : newer snapshot update with
    | false => simpa [fresh] using ih ordered.of_cons
    | true =>
      have all : ∀ later ∈ rest, newer snapshot later = true := by
        intro later member
        have above := rel_of_pairwise_cons ordered member
        simp only [newer, decide_eq_true_eq] at fresh ⊢
        exact UInt64.lt_of_lt_of_le fresh above
      have none : rest.filter (fun later => !newer snapshot later) = [] := by
        apply filter_eq_nil_iff.mpr
        intro later member
        simp [all later member]
      simp [fresh, none, filter_eq_self.mpr all]

/-- The book is the snapshot with the newer updates, and no others. -/
def Synchronised (snapshot : DepthEvent) (early late : List DepthEvent) : Prop :=
  bookDepth (({} : Engine).handleEvents (early ++ snapshot :: late)).depthBook =
    (Depth.listed (writes snapshot)).folded (((early ++ late).filter (newer snapshot)).flatMap writes)

/-- Two synchronised queues of the same updates leave the same book, wherever
the snapshot stands in them. -/
theorem synchronised_unique {snapshot : DepthEvent} {early late before after : List DepthEvent}
    (same : early ++ late = before ++ after) (one : Synchronised snapshot early late)
    (other : Synchronised snapshot before after) :
    (({} : Engine).handleEvents (early ++ snapshot :: late)).depthBook =
      (({} : Engine).handleEvents (before ++ snapshot :: after)).depthBook := by
  apply bookDepth_injective
  unfold Synchronised at one other
  rw [one, other, same]

/-- What old updates wrote last after the snapshot is overwritten, or is what
the snapshot says. -/
def Settles (snapshot : DepthEvent) (late : List DepthEvent) : Prop :=
  ∀ place quantity,
    Depth.lastWrite place ((late.filter fun update => !newer snapshot update).flatMap writes) = some quantity →
    Depth.lastWrite place ((late.filter (newer snapshot)).flatMap writes) = none →
    Depth.listed (writes snapshot) place = Depth.settled quantity

theorem handleEvents_synchronised_iff {snapshot : DepthEvent} {early late : List DepthEvent}
    (taken : snapshot.type = .depthSnapshot) (updating : ∀ update ∈ early ++ late, update.type = .depthUpdate)
    (ordered : (early ++ late).Pairwise fun first second => first.lastUpdateId ≤ second.lastUpdateId) :
    Synchronised snapshot early late ↔ Settles snapshot late := by
  obtain ⟨-, sorted, across⟩ := pairwise_append.mp ordered
  have parts : late = _ := @ordered_split snapshot late sorted
  unfold Synchronised Settles
  rw [handleEvents_depth taken updating, filter_append]
  cases stale : late.filter fun update => !newer snapshot update with
  | nil =>
    rw [stale, nil_append] at parts
    rw [← parts]
    simp [Depth.lastWrite]
  | cons old rest =>
    have present : old ∈ late.filter fun update => !newer snapshot update := stale ▸ mem_cons_self
    obtain ⟨arrived, passed⟩ := mem_filter.mp present
    have buffered : early.filter (newer snapshot) = [] := by
      apply filter_eq_nil_iff.mpr
      intro update member fresh
      have below := across update member old arrived
      simp only [newer, decide_eq_true_eq, Bool.not_eq_true', decide_eq_false_iff_not] at fresh passed
      exact passed (UInt64.lt_of_lt_of_le fresh below)
    have split : late.flatMap writes = _ := (congrArg (List.flatMap writes) parts).trans flatMap_append
    rw [buffered, nil_append, nil_append, ← stale, split]
    exact Depth.folded_append_eq_iff _ _ _

theorem handleEvents_synchronised_iff_overwritten :
    Synchronised ⟨.depthSnapshot, [⟨90, 1⟩], [⟨100, 1⟩], 10⟩ [⟨.depthUpdate, [⟨89, 3⟩], [], 8⟩]
        [⟨.depthUpdate, [⟨90, 2⟩], [⟨101, 0⟩], 9⟩, ⟨.depthUpdate, [⟨90, 4⟩], [], 11⟩] ↔
      Settles ⟨.depthSnapshot, [⟨90, 1⟩], [⟨100, 1⟩], 10⟩
        [⟨.depthUpdate, [⟨90, 2⟩], [⟨101, 0⟩], 9⟩, ⟨.depthUpdate, [⟨90, 4⟩], [], 11⟩] :=
  handleEvents_synchronised_iff rfl (by decide) (by decide)

/-- An update the snapshot already contains puts an old quantity back when it
comes late, and makes no difference when it comes early. -/
theorem late_update_reverts :
    ¬ Synchronised ⟨.depthSnapshot, [⟨90, 1⟩], [⟨100, 1⟩], 10⟩ [] [⟨.depthUpdate, [⟨90, 2⟩], [], 9⟩] ∧
      Synchronised ⟨.depthSnapshot, [⟨90, 1⟩], [⟨100, 1⟩], 10⟩ [⟨.depthUpdate, [⟨90, 2⟩], [], 9⟩] [] := by
  constructor
  · intro same
    have place := congrFun same (.buy, 90)
    revert place
    decide
  · exact handleEvents_depth rfl (by decide)

end FinanceTech.Proofs.DepthSynchronisation
