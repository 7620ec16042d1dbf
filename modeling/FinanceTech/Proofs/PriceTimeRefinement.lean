import FinanceTech.Proofs.MatchingPriority

/-! The engine refines the reference matcher for orders of every action: what it
trades and what it leaves in the book is what the flat lists of resting orders
say, whatever pointers it follows to get there. -/

namespace FinanceTech.Proofs.PriceTimeRefinement
open List Library Matching Matching.Pointer MatchingLoops MatchingPointers MatchingSteps MatchingRepresentation
open PriceTime PriceTimeFill MatchingPriority

variable {engine next : MatchingEngine} {position : Position} {order : Order}

theorem side_ids (valid : Valid engine) (side : OrderSide) : (((book engine).side side).map Order.orderId).Nodup := by
  have unique := (valid.links side).unique
  rw [references_append, NodupKeys, keys_append, references_keys] at unique
  rw [book_side, resting, map_map]
  exact unique.sublist (sublist_append_left _ _)

/-- The resting orders served before the one at the position, and after it. -/
def ahead (position : Position) : List Order := resting position.front ++ position.before.map Node.order

def behind (position : Position) : List Order := position.after.map Node.order ++ resting position.back

theorem at_resting (at' : position.At engine) : (book engine).side position.side =
    ahead position ++ position.node.order :: behind position := by
  rw [book_side, at'.levels, resting_append, resting_cons, at'.orders, map_append, map_cons, ahead, behind]
  simp only [append_assoc, cons_append]

theorem apart (valid : Valid engine) (at' : position.At engine) :
    ∀ other ∈ ahead position ++ behind position, other.orderId ≠ position.node.order.orderId := by
  have unique := side_ids valid position.side
  rw [at_resting at', map_append, map_cons, nodup_middle, ← map_append] at unique
  intro other member same
  exact (nodup_cons.mp unique).1 (mem_map.mpr ⟨other, member, same⟩)

/-- Cancelling leaves the orders around the position. -/
theorem Cancelled.remains (cancelled : Cancelled engine position next) :
    resting (next.levels position.side) = ahead position ++ behind position := by
  rw [cancelled.own, Position.around, remaining, resting_append, resting_append, ahead, behind]
  split
  next empty =>
    obtain ⟨before, after⟩ := append_eq_nil_iff.mp empty
    rw [before, after]
    simp [resting]
  next => simp [resting]

theorem Requantified.remains {quantity : Quantity} (amended : Requantified engine position quantity next) :
    resting (next.levels position.side) = ahead position ++ { position.node.order with quantity } :: behind position := by
  rw [amended.own, Position.around, resting_append, resting_append, resting_cons, requantified, ahead, behind]
  simp [resting]

/-- An order whose id is unknown on its side names nothing there. -/
theorem unknown_apart (valid : Valid engine) (unknown : Unknown engine order) :
    ∀ other ∈ (book engine).side order.side, other.orderId ≠ order.orderId := by
  intro other member same
  rw [book_side] at member
  obtain ⟨entry, present, node, inside, rfl⟩ := mem_resting.mp member
  obtain ⟨position, at', side, rfl, -⟩ := position_of_mem valid present inside
  exact unknown position at' same side

private theorem withdraw_unknown (valid : Valid engine) (unknown : Unknown engine order) : withdraw (book engine) order = book engine := by
  have same : ((book engine).side order.side).filter (fun resting => resting.orderId ≠ order.orderId) =
      (book engine).side order.side := by
    apply filter_eq_self.mpr
    intro other member
    simpa using unknown_apart valid unknown other member
  apply book_eq order.side
  · rw [withdraw, withSide_side, same]
  · rw [withdraw, withSide_opposite]

theorem Cancelled.withdraw (valid : Valid engine) (at' : position.At engine) (cancelled : Cancelled engine position next)
    (id : position.node.order.orderId = order.orderId) (side : position.side = order.side) :
    book next = withdraw (book engine) order := by
  have others := apart valid at'
  rw [id] at others
  have left : (ahead position ++ position.node.order :: behind position).filter
      (fun resting => resting.orderId ≠ order.orderId) = ahead position ++ behind position := by
    rw [filter_append, filter_cons_of_neg (by simp [id]), ← filter_append]
    apply filter_eq_self.mpr
    intro other member
    simpa using others other member
  have after := Cancelled.remains cancelled
  apply book_eq order.side
  · rw [PriceTime.withdraw, withSide_side, ← side, book_side, after, at_resting at', left]
  · rw [PriceTime.withdraw, withSide_opposite, ← side, book_side, book_side, cancelled.other]

theorem Requantified.requantify (valid : Valid engine) (at' : position.At engine)
    (amended : Requantified engine position order.quantity next) (id : position.node.order.orderId = order.orderId)
    (side : position.side = order.side) : book next = requantify (book engine) order := by
  have others := apart valid at'
  rw [id] at others
  have kept : ∀ orders : List Order, (∀ other ∈ orders, other.orderId ≠ order.orderId) → orders.map (fun resting =>
      if resting.orderId = order.orderId then { resting with quantity := order.quantity } else resting) = orders := by
    intro orders absent
    exact (map_congr_left fun other member => if_neg (absent other member)).trans (map_id' _)
  have after := Requantified.remains amended
  apply book_eq order.side
  · rw [PriceTime.requantify, withSide_side, ← side, book_side, after, at_resting at', map_append, map_cons,
      kept _ fun other member => others other (mem_append_left _ member),
      kept _ fun other member => others other (mem_append_right _ member), if_pos id]
  · rw [PriceTime.requantify, withSide_opposite, ← side, book_side, book_side, amended.other]

theorem facing (live : LiveBook (book engine)) (side : OrderSide) : Live (resting (engine.levels side.opposite)) := by
  rw [← book_side]
  exact live side.opposite

/-- An operation of the engine has traded and left what the reference matcher
says. -/
structure Comes (engine next : MatchingEngine) (outcome : List Execution × Book) : Prop where
  trades : ∃ recorded, next.trades = engine.trades ++ recorded ∧ executed recorded = outcome.1
  left : book next = outcome.2

theorem Comes.quiet {after : Book} (trades : next.trades = engine.trades) (same : book next = after) :
    Comes engine next ([], after) :=
  ⟨⟨[], trades.trans (append_nil _).symm, rfl⟩, same⟩

private theorem handleOrderNew_comes (valid : Valid engine) (live : LiveBook (book engine)) (order : Order) :
    Comes engine (engine.handleOrderNew order) (accept (book engine) order) := by
  obtain ⟨recorded, trades, executions, same⟩ := handleOrderNew_accepts valid order (facing live order.side)
  exact ⟨⟨recorded, trades, executions⟩, same⟩

private theorem find?_unknown (valid : Valid engine) (unknown : Unknown engine order) :
    ((book engine).side order.side).find? (fun resting => resting.orderId = order.orderId) = none := by
  apply find?_eq_none.mpr
  intro other member
  simpa using unknown_apart valid unknown other member

private theorem find?_at (valid : Valid engine) (at' : position.At engine) (id : position.node.order.orderId = order.orderId)
    (side : position.side = order.side) :
    ((book engine).side order.side).find? (fun resting => resting.orderId = order.orderId) = some position.node.order := by
  rw [← side, at_resting at']
  apply find?_unique
  · exact mem_append_right _ mem_cons_self
  · simp [id]
  · intro other member same
    rcases mem_cons.mp (perm_middle.mem_iff.mp member) with rfl | member
    · rfl
    · exact absurd ((of_decide_eq_true same).trans id.symm) (apart valid at' other member)

/-- The engine refines the reference matcher. -/
private theorem processed_comes (valid : Valid engine) (live : LiveBook (book engine)) (processed : Processed engine order next) :
    Comes engine next (process (book engine) order) := by
  rw [process]
  cases processed with
  | ignored other unknown =>
    cases action : order.action with
    | new => exact absurd action other
    | cancel => exact Comes.quiet rfl (withdraw_unknown valid (unknown (.inl action))).symm
    | amend =>
      simp only [amend, find?_unknown valid (unknown (.inr action))]
      exact Comes.quiet rfl rfl
    | recovery | recoveryEnd => exact Comes.quiet rfl rfl
  | submitted new =>
    rw [new]
    exact handleOrderNew_comes valid live order
  | cancelled cancel at' id side gone =>
    rw [cancel]
    exact Comes.quiet gone.trades (Cancelled.withdraw valid at' gone id side)
  | moved action at' id side price gone =>
    have withdrawn := Cancelled.withdraw valid at' gone id side
    have alive := withdraw_live live order
    rw [← withdrawn] at alive
    obtain ⟨trades, after⟩ := handleOrderNew_comes (gone.valid valid at') alive order
    rw [withdrawn] at trades after
    rw [gone.trades] at trades
    simp only [action, amend, find?_at valid at' id side, if_neg price]
    exact ⟨trades, after⟩
  | requantified action at' id side price changed =>
    simp only [action, amend, find?_at valid at' id side, if_pos price]
    exact Comes.quiet changed.trades (Requantified.requantify valid at' changed id side)

theorem processOrder_comes (valid : Valid engine) (live : LiveBook (book engine)) (order : Order) :
    ∃ next, engine.processOrder order = some next ∧ Valid next ∧ Comes engine next (process (book engine) order) := by
  obtain ⟨next, ran, processed⟩ := processOrder_processes valid order
  exact ⟨next, ran, processed.valid valid, processed_comes valid live processed⟩

/-- A run of the engine trades and leaves what the reference matcher says. -/
theorem processOrders_comes {orders : List Order} (range : ∀ order ∈ orders, InRange order.quantity) (valid : Valid engine)
    (live : LiveBook (book engine)) :
    ∃ final, engine.processOrders orders = some final ∧ Valid final ∧ LiveBook (book final) ∧
      Comes engine final (serve (book engine) orders) := by
  induction orders generalizing engine with
  | nil => exact ⟨engine, rfl, valid, live, Comes.quiet rfl rfl⟩
  | cons order rest ih =>
    obtain ⟨small, others⟩ := forall_mem_cons.mp range
    obtain ⟨next, ran, after, ⟨recorded, trades, executions⟩, same⟩ := processOrder_comes valid live order
    have alive : LiveBook (book next) := by
      rw [same]
      exact process_live live small
    obtain ⟨final, arrived, last, still, ⟨more, logged, served⟩, ends⟩ := ih others after alive
    refine ⟨final, ?_, last, still, ⟨recorded ++ more, ?_, ?_⟩, ?_⟩
    · rw [MatchingEngine.processOrders, foldlM_cons, ran]
      exact arrived
    · rw [logged, trades, append_assoc]
    · rw [executed_append, executions, served, same]
      rfl
    · rw [ends, same]
      rfl

private theorem live_empty : LiveBook (book {}) := by
  intro side
  cases side <;> exact fun order member => absurd member not_mem_nil

theorem reached_live {orders : List Order} (range : ∀ order ∈ orders, InRange order.quantity)
    (reached : MatchingEngine.processOrders {} orders = some engine) : Valid engine ∧ LiveBook (book engine) := by
  obtain ⟨final, ran, valid, live, -⟩ := processOrders_comes range initial live_empty
  rw [reached] at ran
  obtain rfl := Option.some.inj ran
  exact ⟨valid, live⟩

end FinanceTech.Proofs.PriceTimeRefinement
