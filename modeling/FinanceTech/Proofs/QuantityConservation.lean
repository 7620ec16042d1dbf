import FinanceTech.Proofs.MatchingQuantities

/-! What becomes of the quantity of one new order. Matching keeps the balance of
what the order takes and what the other side gives up; the trades record it as
far as 32 bits go, and the rest of the order is stored unless its id still
rests. -/

namespace FinanceTech.Proofs.QuantityConservation
open List Library Matching Matching.Pointer Matching.Pointer.MatchState
open PriceTime PriceTimeFill MatchingLoops MatchingPointers MatchingSteps MatchingRepresentation LevelQuantity
open MatchingPriority MatchingQuantities

private theorem matchOrderList_balance (state : MatchState) (nodes : List Node) :
    wanted ((matchOrderList state nodes).2.map Node.order) + state.order.quantity.toNat =
      wanted (nodes.map Node.order) + (matchOrderList state nodes).1.order.quantity.toNat := by
  obtain ⟨left, kept, -⟩ := matchOrderList_total state nodes
  rw [← total_eq, ← total_eq]
  omega

private theorem matchLevels_balance (state : MatchState) (levels : PriceLevelMap) :
    wanted (resting (matchLevels state levels).2) + state.order.quantity.toNat =
      wanted (resting levels) + (matchLevels state levels).1.order.quantity.toNat := by
  induction levels generalizing state with
  | nil => rfl
  | cons entry rest ih =>
    have one := matchOrderList_balance state entry.2.orders
    rw [matchLevels_cons]
    split
    next =>
      split
      next empty =>
        have two := ih (matchOrderList state entry.2.orders).1
        rw [empty, map_nil, wanted_nil] at one
        rw [resting_cons, wanted_append]
        omega
      next =>
        rw [resting_cons, resting_cons, wanted_append, wanted_append]
        simp only
        omega
    next => rfl

section Order

variable {engine : MatchingEngine} {order : Order}

private theorem matchOrder_balance (engine : MatchingEngine) (order : Order) :
    wanted (resting ((engine.matchOrder order).2.levels order.side.opposite)) + order.quantity.toNat =
      wanted (resting (engine.levels order.side.opposite)) + (engine.matchOrder order).1.quantity.toNat := by
  rw [matchOrder_opposite]
  exact matchLevels_balance ⟨order, engine.orderByIDMap, engine.trades⟩ (engine.levels order.side.opposite)

theorem matchOrder_settled (valid : Valid engine) (order : Order) :
    Settled ⟨order, engine.orderByIDMap, engine.trades⟩ (opposing engine order)
      ⟨(engine.matchOrder order).1, (engine.matchOrder order).2.orderByIDMap, (engine.matchOrder order).2.trades⟩ :=
  matchLevels_settled (valid.side order.side.opposite)

end Order

/-- The new trades record what the order has given up and what the resting
orders of the other side have. -/
structure Conserves (engine : MatchingEngine) (order : Order) (recorded : List Trade) (next : MatchingEngine) : Prop where
  incoming : (engine.matchOrder order).1.quantity.toNat + moved recorded = order.quantity.toNat
  resting : wanted (resting (next.levels order.side.opposite)) + moved recorded =
    wanted (resting (engine.levels order.side.opposite))

/-- Matching itself loses nothing, so the trades are right exactly when none of
them has to record more than 32 bits. -/
theorem trades_conserve_iff {orders : List Order} {engine : MatchingEngine}
    (reached : MatchingEngine.processOrders {} orders = some engine) {order : Order} (new : order.action = .new) :
    ∃ next recorded, engine.processOrder order = some next ∧ next.trades = engine.trades ++ recorded ∧
      (Conserves engine order recorded next ↔ Narrow order.quantity.toNat (opposing engine order)) := by
  have valid := reached_valid reached
  have balance := matchOrder_balance engine order
  obtain ⟨left, recorded, traded, within, narrow⟩ := matchOrder_settled valid order
  obtain ⟨trades, other⟩ := handleOrderNew_matched valid order
  have ran := processOrder_new engine new
  simp only at left within narrow
  refine ⟨engine.handleOrderNew order, recorded, ran, trades.trans traded, ?_⟩
  rw [← narrow]
  constructor
  · rintro ⟨incoming, -⟩
    omega
  · intro exactly
    refine ⟨by omega, ?_⟩
    rw [other]
    omega

/-- Three against a bid of seven. -/
theorem trades_conserve_iff_seven :
    let engine := ({} : MatchingEngine).handleOrderNew ⟨.buy, .new, 1, 100, 7⟩
    ∃ next recorded, engine.processOrder ⟨.sell, .new, 2, 100, 3⟩ = some next ∧ next.trades = engine.trades ++ recorded ∧
      (Conserves engine ⟨.sell, .new, 2, 100, 3⟩ recorded next ↔ Narrow 3 (opposing engine ⟨.sell, .new, 2, 100, 3⟩)) :=
  @trades_conserve_iff [⟨.buy, .new, 1, 100, 7⟩] _ rfl ⟨.sell, .new, 2, 100, 3⟩ rfl

/-- Two orders of 2 ^ 32 use each other up, and the trade says zero. -/
theorem wide_trade_records_zero :
    let engine := ({} : MatchingEngine).handleOrderNew ⟨.buy, .new, 1, 100, 4294967296⟩
    MatchingEngine.processOrders {} [⟨.buy, .new, 1, 100, 4294967296⟩] = some engine ∧
    ∃ next, engine.processOrder ⟨.sell, .new, 2, 100, 4294967296⟩ = some next ∧
      next.trades = engine.trades ++ [⟨⟨1, 100⟩, ⟨2, 100⟩, 0⟩] ∧ resting (next.levels .buy) = [] ∧
      ¬ Conserves engine ⟨.sell, .new, 2, 100, 4294967296⟩ [⟨⟨1, 100⟩, ⟨2, 100⟩, 0⟩] next := by
  refine ⟨rfl, _, rfl, by decide, by decide, fun conserves => ?_⟩
  have wrong := conserves.incoming
  revert wrong
  decide

theorem matchLevels_rest {state : MatchState} {levels : PriceLevelMap} (valid : SideValid state.order.side.opposite levels)
    (remains : (matchLevels state levels).1.order.quantity ≠ 0) : resting (matchLevels state levels).2 =
      (resting levels).filter fun order => ! crossing state.order.side state.order.price order := by
  induction levels generalizing state with
  | nil => rfl
  | cons entry rest ih =>
    have tail := valid.tail
    obtain ⟨quantity, same⟩ := matchOrderList_order state entry.2.orders
    rw [matchLevels_cons] at remains ⊢
    split
    next runs =>
      rw [if_pos runs] at remains
      split
      next empty =>
        rw [if_pos empty] at remains
        have later := @ih (matchOrderList state entry.2.orders).1 (by rw [same]; exact tail) remains
        rw [same] at later
        have gone : (entry.2.orders.map Node.order).filter (fun order => ! crossing state.order.side state.order.price order) = [] := by
          apply filter_eq_nil_iff.mpr
          intro order member
          obtain ⟨node, held, rfl⟩ := mem_map.mp member
          rw [← crosses_eq, ((valid.stocked entry mem_cons_self).2 node held).2, runs.2]
          exact Bool.false_ne_true
        rw [resting_cons, filter_append, gone, nil_append]
        exact later
      next stocked =>
        rw [if_neg stocked] at remains
        exact absurd (matchOrderList_left stocked) remains
    next stops =>
      rw [if_neg stops] at remains
      have outside : crosses state.order.side entry.1 state.order.price = false := by
        simpa [UInt64.pos_iff_ne_zero.mpr remains] using stops
      refine (filter_eq_self.mpr fun order member => ?_).symm
      rw [uncrossed_behind valid outside order member]
      rfl

private theorem matchLevels_unreached {state : MatchState} {levels : PriceLevelMap} (valid : SideValid state.order.side.opposite levels)
    (alone : reached state.order.side state.order.price levels = []) : matchLevels state levels = (state, levels) := by
  cases levels with
  | nil => rfl
  | cons entry rest =>
    rw [matchLevels_cons, if_neg]
    rintro ⟨-, inside⟩
    rw [reached_cons valid inside] at alone
    exact (valid.stocked entry mem_cons_self).1 (map_eq_nil_iff.mp (append_eq_nil_iff.mp alone).1)

section Index

variable {engine : MatchingEngine} {order : Order}

theorem indexed_iff (valid : Valid engine) (side : OrderSide) (id : OrderID) : id ∈ engine.orderByIDMap ↔
    (∃ own ∈ resting (engine.levels side), own.orderId = id) ∨
      ∃ other ∈ resting (engine.levels side.opposite), other.orderId = id := by
  rw [mem_ids valid, mem_ids_iff side, book_side, book_side, mem_map, mem_map]

theorem side_of_mem {levels : PriceLevelMap} {side : OrderSide} (valid : SideValid side levels) (member : order ∈ resting levels) :
    order.side = side := by
  obtain ⟨entry, present, node, held, rfl⟩ := mem_resting.mp member
  exact ((valid.stocked entry present).2 node held).1

theorem id_unique (valid : Valid engine) {first second : Order} {side other : OrderSide}
    (one : first ∈ resting (engine.levels side)) (two : second ∈ resting (engine.levels other))
    (same : first.orderId = second.orderId) : first = second := by
  have unique := valid.linked.unique
  have ids : (references (engine.bidPriceLevelMap ++ engine.askPriceLevelMap)).keys =
      (resting (engine.bidPriceLevelMap ++ engine.askPriceLevelMap)).map Order.orderId := by
    rw [references_keys, resting, map_map]
    rfl
  rw [NodupKeys, ids] at unique
  have within : ∀ {order : Order} {side : OrderSide}, order ∈ resting (engine.levels side) →
      order ∈ resting (engine.bidPriceLevelMap ++ engine.askPriceLevelMap) := by
    intro order side member
    rw [resting_append]
    cases side with
    | buy => exact mem_append_left _ member
    | sell => exact mem_append_right _ member
  exact inj_on_of_nodup_map unique (within one) (within two) same

private theorem matchOrder_indexed (valid : Valid engine) (remains : (engine.matchOrder order).1.quantity ≠ 0) :
    order.orderId ∈ (engine.matchOrder order).2.orderByIDMap ↔
      order.orderId ∈ engine.orderByIDMap ∧ ∀ other ∈ opposing engine order, other.orderId ≠ order.orderId := by
  have kept := matchLevels_rest (valid.side order.side.opposite) remains
  rw [indexed_iff (matchOrder_valid valid order) order.side, indexed_iff valid order.side, matchOrder_own,
    matchOrder_opposite, kept]
  constructor
  · rintro (⟨own, member, same⟩ | ⟨other, member, same⟩)
    · refine ⟨.inl ⟨own, member, same⟩, fun facing crosses named => ?_⟩
      obtain ⟨inside, -⟩ := mem_filter.mp crosses
      have one := id_unique valid member inside (same.trans named.symm)
      have first := side_of_mem (valid.side order.side) member
      have second := side_of_mem (valid.side order.side.opposite) inside
      rw [one, second] at first
      exact absurd first (by cases order.side <;> decide)
    · obtain ⟨inside, apart⟩ := mem_filter.mp member
      refine ⟨.inr ⟨other, inside, same⟩, fun facing crosses named => ?_⟩
      obtain ⟨present, crossing⟩ := mem_filter.mp crosses
      rw [id_unique valid inside present (same.trans named.symm), crossing] at apart
      exact Bool.false_ne_true apart
  · rintro ⟨⟨own, member, same⟩ | ⟨other, member, same⟩, others⟩
    · exact .inl ⟨own, member, same⟩
    · refine .inr ⟨other, mem_filter.mpr ⟨member, ?_⟩, same⟩
      by_contra crosses
      refine others other (mem_filter.mpr ⟨member, ?_⟩) same
      simpa using crosses

end Index

/-- What the order traded and what its own side holds more make up its
quantity. -/
def Accounted (engine : MatchingEngine) (order : Order) (recorded : List Trade) (next : MatchingEngine) : Prop :=
  moved recorded + wanted (resting (next.levels order.side)) = order.quantity.toNat + wanted (resting (engine.levels order.side))

instance (engine : MatchingEngine) (order : Order) (recorded : List Trade) (next : MatchingEngine) :
    Decidable (Accounted engine order recorded next) := inferInstanceAs (Decidable (_ = _))

/-- The book, the index and the trade log are as they were. -/
structure Untouched (engine next : MatchingEngine) : Prop where
  book : ∀ side, next.levels side = engine.levels side
  index : next.orderByIDMap = engine.orderByIDMap
  trades : next.trades = engine.trades

section Entry

variable {engine : MatchingEngine} {order : Order}

private theorem matchOrder_untouched (valid : Valid engine) (alone : opposing engine order = []) :
    Untouched engine (engine.matchOrder order).2 := by
  have still := @matchLevels_unreached ⟨order, engine.orderByIDMap, engine.trades⟩ _ (valid.side order.side.opposite) alone
  have opposite : (engine.matchOrder order).2.levels order.side.opposite = engine.levels order.side.opposite := by
    rw [matchOrder_opposite, still]
  refine ⟨fun side => ?_, ?_, ?_⟩
  · have own := matchOrder_own engine order
    cases chosen : order.side <;> cases side <;> rw [chosen] at own opposite <;> assumption
  · rw [matchOrder_index, still]
  · exact congrArg (fun looped => looped.1.trades) still

private theorem opposing_of_untouched (valid : Valid engine) (remains : (engine.matchOrder order).1.quantity ≠ 0)
    (untouched : Untouched engine (engine.matchOrder order).2) : opposing engine order = [] := by
  have kept := matchLevels_rest (valid.side order.side.opposite) remains
  have same := untouched.book order.side.opposite
  rw [matchOrder_opposite] at same
  rw [same] at kept
  have apart := filter_eq_self.mp kept.symm
  apply filter_eq_nil_iff.mpr
  intro other member
  simpa using apart other member

theorem Inserted.wanted {next : MatchingEngine} {position : Position} (inserted : Inserted engine order position next)
    (valid : Valid next) :
    wanted (resting (next.levels order.side)) = order.quantity.toNat + wanted (resting (engine.levels order.side)) := by
  have sum := ((perm_orderedInsert (earlier order.side) order (resting (engine.levels order.side))).map
    fun order => order.quantity.toNat).sum_eq
  rw [Inserted.resting inserted valid]
  exact sum

private theorem dropped_accounted_iff {recorded : List Trade} (valid : Valid engine) (remains : (engine.matchOrder order).1.quantity ≠ 0)
    (present : order.orderId ∈ engine.orderByIDMap)
    (moves : moved recorded = min order.quantity.toNat (wanted (opposing engine order)))
    (short : ¬ order.quantity.toNat ≤ wanted (opposing engine order)) :
    Accounted engine order recorded (engine.matchOrder order).2 ∨
        order.orderId ∈ engine.orderByIDMap ∧ Untouched engine (engine.matchOrder order).2 ↔ opposing engine order = [] := by
  constructor
  · rintro (accounted | ⟨-, untouched⟩)
    · rw [Accounted, matchOrder_own] at accounted
      omega
    · exact opposing_of_untouched valid remains untouched
  · intro alone
    exact .inr ⟨present, matchOrder_untouched valid alone⟩

theorem stored_accounted {recorded : List Trade} {next : MatchingEngine} {position : Position}
    (inserted : Inserted (engine.matchOrder order).2 (engine.matchOrder order).1 position next) (valid : Valid next)
    (left : (engine.matchOrder order).1.quantity.toNat = order.quantity.toNat - wanted (opposing engine order))
    (moves : moved recorded = min order.quantity.toNat (wanted (opposing engine order))) :
    Accounted engine order recorded next := by
  obtain ⟨quantity, own⟩ := matchOrder_order engine order
  have side : (engine.matchOrder order).1.side = order.side := by rw [own]
  have stored := Inserted.wanted inserted valid
  rw [side, matchOrder_own] at stored
  rw [Accounted, stored]
  omega

end Entry

/-- A new order is matched before its id is looked up, so one whose id rests
loses its rest exactly when it has met somebody, none of them of its own id, and
still wants more. -/
theorem quantity_accounted_iff {orders : List Order} {engine : MatchingEngine}
    (reached : MatchingEngine.processOrders {} orders = some engine) {order : Order} (new : order.action = .new)
    (small : order.quantity < 2 ^ 32) :
    ∃ next recorded, engine.processOrder order = some next ∧ next.trades = engine.trades ++ recorded ∧
      (Accounted engine order recorded next ∨ order.orderId ∈ engine.orderByIDMap ∧ Untouched engine next ↔
        order.orderId ∉ engine.orderByIDMap ∨ (∃ other ∈ opposing engine order, other.orderId = order.orderId) ∨
          opposing engine order = [] ∨ order.quantity.toNat ≤ wanted (opposing engine order)) := by
  have valid := reached_valid reached
  obtain ⟨left, recorded, traded, -, narrow⟩ := matchOrder_settled valid order
  have moves := narrow.mpr (narrow_small (UInt64.lt_iff_toNat_lt.mp small) _)
  obtain ⟨trades, -⟩ := handleOrderNew_matched valid order
  have ran := processOrder_new engine new
  simp only at left moves
  refine ⟨engine.handleOrderNew order, recorded, ran, trades.trans traded, ?_⟩
  by_cases remains : (engine.matchOrder order).1.quantity = 0
  · have filled : order.quantity.toNat ≤ wanted (opposing engine order) := by
      rw [remains, UInt64.toNat_zero] at left
      omega
    have same : engine.handleOrderNew order = (engine.matchOrder order).2 := by rw [handleOrderNew_eq, if_pos remains]
    refine ⟨fun _ => .inr (.inr (.inr filled)), fun _ => .inl ?_⟩
    rw [Accounted, same, matchOrder_own]
    omega
  · have short : ¬ order.quantity.toNat ≤ wanted (opposing engine order) := by
      intro enough
      apply remains
      rw [← UInt64.toNat_inj, left, UInt64.toNat_zero]
      omega
    have indexed := matchOrder_indexed valid remains
    obtain ⟨quantity, own⟩ := matchOrder_order engine order
    have named : (engine.matchOrder order).1.orderId = order.orderId := by rw [own]
    rcases handleOrderNew_cases valid order with ⟨dropped, same⟩ | ⟨-, absent, position, inserted, after⟩
    · -- what is left is dropped: the id has stayed in the index
      have rests := dropped.resolve_left remains
      rw [named, indexed] at rests
      obtain ⟨present, others⟩ := rests
      rw [same, dropped_accounted_iff valid remains present moves short]
      constructor
      · intro alone
        exact .inr (.inr (.inl alone))
      · rintro (fresh | ⟨other, member, same⟩ | alone | enough)
        · exact absurd present fresh
        · exact absurd same (others other member)
        · exact alone
        · exact absurd enough short
    · -- what is left is stored
      rw [named, indexed] at absent
      refine ⟨fun _ => ?_, fun _ => .inl (stored_accounted inserted after left moves)⟩
      by_cases fresh : order.orderId ∈ engine.orderByIDMap
      · refine .inr (.inl ?_)
        by_contra nobody
        exact absent ⟨fresh, fun other member same => nobody ⟨other, member, same⟩⟩
      · exact .inl fresh

/-- A bid of its own id does not keep an ask from trading. -/
theorem quantity_accounted_iff_reused :
    let engine := ({} : MatchingEngine).handleOrderNew ⟨.buy, .new, 1, 100, 7⟩
    ∃ next recorded, engine.processOrder ⟨.sell, .new, 1, 100, 9⟩ = some next ∧ next.trades = engine.trades ++ recorded ∧
      (Accounted engine ⟨.sell, .new, 1, 100, 9⟩ recorded next ∨ 1 ∈ engine.orderByIDMap ∧ Untouched engine next ↔
        1 ∉ engine.orderByIDMap ∨ (∃ other ∈ opposing engine ⟨.sell, .new, 1, 100, 9⟩, other.orderId = 1) ∨
          opposing engine ⟨.sell, .new, 1, 100, 9⟩ = [] ∨ 9 ≤ wanted (opposing engine ⟨.sell, .new, 1, 100, 9⟩)) :=
  @quantity_accounted_iff [⟨.buy, .new, 1, 100, 7⟩] _ rfl ⟨.sell, .new, 1, 100, 9⟩ rfl (by decide)

/-- An ask takes a bid of four, and the other six are neither traded nor stored,
because another ask has its id. -/
theorem reused_id_loses_rest :
    let engine := (({} : MatchingEngine).handleOrderNew ⟨.sell, .new, 1, 105, 5⟩).handleOrderNew ⟨.buy, .new, 2, 100, 4⟩
    MatchingEngine.processOrders {} [⟨.sell, .new, 1, 105, 5⟩, ⟨.buy, .new, 2, 100, 4⟩] = some engine ∧
    ∃ next, engine.processOrder ⟨.sell, .new, 1, 100, 10⟩ = some next ∧ 1 ∈ engine.orderByIDMap ∧
      next.trades = engine.trades ++ [⟨⟨2, 100⟩, ⟨1, 100⟩, 4⟩] ∧
      ¬ Accounted engine ⟨.sell, .new, 1, 100, 10⟩ [⟨⟨2, 100⟩, ⟨1, 100⟩, 4⟩] next ∧ ¬ Untouched engine next := by
  refine ⟨rfl, _, rfl, by decide, by decide, by decide, fun untouched => ?_⟩
  have same := untouched.trades
  revert same
  decide

end FinanceTech.Proofs.QuantityConservation
