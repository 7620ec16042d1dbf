import FinanceTech.Proofs.MatchingUncrossed
import FinanceTech.Proofs.PriceTimeFill

/-! The engine serves price-time priority. Its loops over levels and lists, with
their break and their erasing of levels, compute the greedy filling of the flat
list of opposite orders when every resting order wants something. -/

namespace FinanceTech.Proofs.MatchingPriority
open List Library Matching Matching.Pointer Matching.Pointer.MatchState MatchingLoops MatchingPointers MatchingSteps MatchingRepresentation
open PriceTime PriceTimeFill

/-- The resting orders of a side in the engine's order. -/
def resting (levels : PriceLevelMap) : List Order := (PriceLevelMap.nodes levels).map Node.order

def book (engine : MatchingEngine) : Book := ⟨resting engine.bidPriceLevelMap, resting engine.askPriceLevelMap⟩

@[simp] theorem resting_cons (price : Price) (level : PriceLevel) (rest : PriceLevelMap) :
    resting (⟨price, level⟩ :: rest) = level.orders.map Node.order ++ resting rest := by simp [resting]

@[simp] theorem resting_append (first second : PriceLevelMap) :
    resting (first ++ second) = resting first ++ resting second := by simp [resting]

theorem book_side (engine : MatchingEngine) (side : OrderSide) : (book engine).side side = resting (engine.levels side) := by
  cases side <;> rfl

theorem mem_resting {levels : PriceLevelMap} {order : Order} :
    order ∈ resting levels ↔ ∃ entry ∈ levels, ∃ node ∈ entry.2.orders, node.order = order := by
  constructor
  · intro member
    obtain ⟨node, inside, same⟩ := mem_map.mp member
    obtain ⟨entry, present, held⟩ := mem_nodes.mp inside
    exact ⟨entry, present, node, held, same⟩
  · rintro ⟨entry, present, node, held, rfl⟩
    exact mem_map_of_mem (mem_nodes.mpr ⟨entry, present, held⟩)

theorem price_of_mem {side : OrderSide} {levels : PriceLevelMap} (valid : SideValid side levels) {order : Order}
    (member : order ∈ resting levels) : ∃ entry ∈ levels, order.price = entry.1 := by
  obtain ⟨entry, present, node, held, rfl⟩ := mem_resting.mp member
  exact ⟨entry, present, ((valid.stocked entry present).2 node held).2⟩

/-- What a loop has done is the filling of these orders. -/
structure Fills (state : MatchState) (orders : List Order) (next : MatchState) (kept : List Order) : Prop where
  kept : kept = (fill state.order.side state.order.price state.order.quantity orders).kept
  filled : ∃ recorded, next.trades = state.trades ++ recorded ∧ Filled state.order orders next.order.quantity recorded

theorem Fills.left {state next : MatchState} {orders kept : List Order} (fills : Fills state orders next kept) :
    next.order.quantity = (fill state.order.side state.order.price state.order.quantity orders).left := by
  obtain ⟨recorded, -, filled⟩ := fills.filled
  exact filled.left

/-- A loop that stops because nothing crosses, or because nothing is left. -/
theorem Fills.stop {state : MatchState} {orders : List Order} (live : Live orders)
    (stops : state.order.quantity = 0 ∨ ∀ order ∈ orders, crossing state.order.side state.order.price order = false) :
    Fills state orders state orders := by
  refine ⟨?_, [], (append_nil _).symm, Filled.stop live stops⟩
  rcases stops with empty | apart
  · rw [empty, (fill_zero live.positive).1]
  · rw [fill_uncrossed apart]

theorem Fills.trans {state middle next : MatchState} {first second kept rest : List Order}
    (same : middle.order = { state.order with quantity := middle.order.quantity })
    (one : Fills state first middle kept) (two : Fills middle second next rest) :
    Fills state (first ++ second) next (kept ++ rest) := by
  have left := one.left
  obtain ⟨recorded, traded, filled⟩ := one.filled
  obtain ⟨others, later, after⟩ := two.filled
  have behind := two.kept
  rw [same] at behind after
  refine ⟨?_, recorded ++ others, ?_, filled.trans after⟩
  · rw [fill_append, one.kept, behind, ← left]
  · rw [later, traded, append_assoc]

private theorem matchOrderList_fills {state : MatchState} {nodes : List Node} (live : Live (nodes.map Node.order))
    (crosses : ∀ order ∈ nodes.map Node.order, crossing state.order.side state.order.price order = true) :
    Fills state (nodes.map Node.order) (matchOrderList state nodes).1 ((matchOrderList state nodes).2.map Node.order) := by
  induction nodes generalizing state with
  | nil => exact Fills.stop live (.inr (by simp))
  | cons node rest ih =>
    rw [map_cons] at live crosses
    obtain ⟨⟨wants, small⟩, others⟩ := forall_mem_cons.mp live
    obtain ⟨reaches, beyond⟩ := forall_mem_cons.mp crosses
    rw [matchOrderList, map_cons, addTrade_order]
    split
    next fits =>
      let filled : MatchState := { state.addTrade node.order with
        order.quantity := state.order.quantity - node.order.quantity
        orderByIDMap := (state.addTrade node.order).orderByIDMap.erase node.order.orderId }
      have one : Fills state [node.order] filled [] := by
        refine ⟨?_, [Trade.between state.order node.order], rfl, Filled.whole small reaches fits⟩
        simp [fill, reaches, min_eq, fits]
      exact @Fills.trans state filled _ [node.order] _ [] _ rfl one (ih others beyond)
    next larger =>
      have short : state.order.quantity ≠ node.order.quantity := fun same => larger (same ▸ UInt64.le_refl _)
      let used : MatchState := { state.addTrade node.order with order.quantity := 0 }
      have one : Fills state [node.order] used
          [{ node.order with quantity := node.order.quantity - state.order.quantity }] := by
        refine ⟨?_, [Trade.between state.order node.order], rfl, Filled.part small reaches larger⟩
        simp [fill, reaches, min_eq, larger, short]
      exact @Fills.trans state used used [node.order] _ [_] _ rfl one (Fills.stop others (.inl rfl))

theorem crosses_eq (side : OrderSide) (order : Order) (price : Price) :
    crosses side order.price price = crossing side price order := by cases side <;> rfl

theorem uncrossed_behind {side : OrderSide} {price : Price} {entry : (_ : Price) × PriceLevel} {rest : PriceLevelMap}
    (valid : SideValid side.opposite (entry :: rest)) (outside : crosses side entry.1 price = false) :
    ∀ order ∈ resting (entry :: rest), crossing side price order = false := by
  intro order member
  obtain ⟨other, present, same⟩ := price_of_mem valid member
  rw [← crosses_eq, same]
  rcases mem_cons.mp present with rfl | present
  · exact outside
  · by_contra crossing
    have inside := crosses_of_better (valid.sorted.head_before _ present) (Bool.of_not_eq_false crossing)
    rw [inside] at outside
    cases outside

private theorem matchLevels_fills {state : MatchState} {levels : PriceLevelMap}
    (valid : SideValid state.order.side.opposite levels) (live : Live (resting levels)) :
    Fills state (resting levels) (matchLevels state levels).1 (resting (matchLevels state levels).2) := by
  induction levels generalizing state with
  | nil => exact Fills.stop live (.inr (by simp [resting]))
  | cons entry rest ih =>
    obtain ⟨price, level⟩ := entry
    have first := valid.stocked _ mem_cons_self
    have tail := valid.tail
    rw [matchLevels_cons]
    split
    next runs =>
      rw [resting_cons] at live ⊢
      have liveFirst : Live (level.orders.map Node.order) := fun order member => live order (mem_append_left _ member)
      have liveRest : Live (resting rest) := fun order member => live order (mem_append_right _ member)
      have reaches : ∀ order ∈ level.orders.map Node.order, crossing state.order.side state.order.price order = true := by
        intro order member
        obtain ⟨node, inside, rfl⟩ := mem_map.mp member
        rw [← crosses_eq, (first.2 node inside).2]
        exact runs.2
      have filled := matchOrderList_fills liveFirst reaches
      obtain ⟨quantity, same⟩ := matchOrderList_order state level.orders
      have same' : (matchOrderList state level.orders).1.order =
          { state.order with quantity := (matchOrderList state level.orders).1.order.quantity } := by rw [same]
      split
      next empty =>
        rw [empty] at filled
        exact filled.trans same' (ih (by rw [same]; exact tail) liveRest)
      next stocked =>
        rw [resting_cons]
        exact filled.trans same' (Fills.stop liveRest (.inl (matchOrderList_left stocked)))
    next stops =>
      refine Fills.stop live ?_
      by_cases empty : state.order.quantity = 0
      · exact .inl empty
      · have outside : crosses state.order.side price state.order.price = false := by
          simpa [UInt64.pos_iff_ne_zero.mpr empty] using stops
        exact .inr (uncrossed_behind valid outside)

theorem earlier_iff (side : OrderSide) (first second : Order) :
    earlier side first second ↔ better side first.price second.price := by cases side <;> rfl

theorem SideValid.sublist {side : OrderSide} {kept levels : PriceLevelMap} (valid : SideValid side levels)
    (sub : kept <+ levels) : SideValid side kept :=
  ⟨valid.sorted.sublist _ sub, fun entry member => valid.stocked entry (sub.subset member)⟩

private theorem matchOrder_fills {engine : MatchingEngine} (valid : Valid engine) (order : Order)
    (live : Live (resting (engine.levels order.side.opposite))) :
    Fills ⟨order, engine.orderByIDMap, engine.trades⟩ (resting (engine.levels order.side.opposite))
      ⟨(engine.matchOrder order).1, (engine.matchOrder order).2.orderByIDMap, (engine.matchOrder order).2.trades⟩
      (resting ((engine.matchOrder order).2.levels order.side.opposite)) := by
  rw [matchOrder_opposite]
  exact matchLevels_fills (valid.side order.side.opposite) live

private theorem matchOrder_absent {engine : MatchingEngine} (valid : Valid engine) {order : Order}
    (absent : order.orderId ∉ engine.orderByIDMap) : order.orderId ∉ (engine.matchOrder order).2.orderByIDMap := by
  have before := (valid.links order.side.opposite).index
  have after := ((matchOrder_valid valid order).links order.side.opposite).index
  rw [matchOrder_opposite, opposite_opposite, matchOrder_own] at after
  rw [opposite_opposite] at before
  rw [after, FiniteMap.mem_toFinmap, references_append, keys_append, mem_append]
  rw [before, FiniteMap.mem_toFinmap, references_append, keys_append, mem_append] at absent
  rintro (inside | inside)
  · exact absent (.inl (((matchLevels_references _ _).map Sigma.fst).subset inside))
  · exact absent (.inr inside)

/-- The back of a price level is the place behind every order served no later. -/
theorem Inserted.resting {engine next : MatchingEngine} {order : Order} {position : Position}
    (inserted : Inserted engine order position next) (valid : Valid next) :
    resting (next.levels order.side) = orderedInsert (earlier order.side) order (resting (engine.levels order.side)) := by
  have side : position.side = order.side := by rw [← inserted.at'.side, inserted.held]
  have held := valid.side order.side
  have levels := inserted.at'.levels
  have orders := inserted.at'.orders
  rw [side, inserted.held] at levels
  rw [inserted.last] at orders
  have within : position.before.map Node.order ++ [order] = position.level.orders.map Node.order := by
    rw [orders, map_append, map_cons, inserted.held, map_nil]
  have old : MatchingPriority.resting (engine.levels order.side) =
      (MatchingPriority.resting position.front ++ position.before.map Node.order) ++
        MatchingPriority.resting position.back := by
    obtain ⟨quantity, -, source | ⟨source, none, -⟩⟩ := inserted.source
    · rw [source, Position.around, resting_append, resting_append, resting_cons]
      simp [MatchingPriority.resting]
    · rw [source, Position.around, none, resting_append, resting_append]
      simp [MatchingPriority.resting]
  have sorted := held.sorted
  rw [levels] at sorted held
  have split := pairwise_append.mp sorted
  rw [old, orderedInsert_middle ?_ ?_, levels, resting_append, resting_cons, ← within]
  · simp only [append_assoc, singleton_append]
  · intro other member
    rw [earlier_iff]
    rcases mem_append.mp member with member | member
    · obtain ⟨entry, present, price⟩ := price_of_mem (SideValid.sublist held (sublist_append_left _ _)) member
      rw [price]
      exact asymm (r := better order.side) (split.2.2 entry present _ mem_cons_self)
    · have inside : other ∈ MatchingPriority.resting [⟨order.price, position.level⟩] := by
        rw [resting_cons, ← within, append_assoc]
        exact mem_append_left _ member
      obtain ⟨entry, present, price⟩ := price_of_mem (SideValid.sublist held
        ((singleton_sublist.mpr mem_cons_self).trans (sublist_append_right _ _))) inside
      rw [price, mem_singleton.mp present]
      exact irrefl (r := better order.side) _
  · intro other member
    obtain ⟨entry, present, price⟩ := price_of_mem (SideValid.sublist held
      ((sublist_cons_self _ _).trans (sublist_append_right _ _))) member
    rw [earlier_iff, price]
    exact rel_of_pairwise_cons split.2.1 present

theorem mem_ids {engine : MatchingEngine} (valid : Valid engine) (id : OrderID) :
    id ∈ engine.orderByIDMap ↔ id ∈ (book engine).ids := by
  have ids : (book engine).ids = (PriceLevelMap.nodes (engine.bidPriceLevelMap ++ engine.askPriceLevelMap)).map
      fun node => node.order.orderId := by
    rw [Book.ids, book, ← resting_append, MatchingPriority.resting, map_map]
    rfl
  rw [valid.linked.index, FiniteMap.mem_toFinmap, references_keys, ids]

/-- The book that matching leaves, before anything is stored. -/
private theorem matchOrder_book {engine : MatchingEngine} (valid : Valid engine) (order : Order)
    (live : Live (resting (engine.levels order.side.opposite))) : book (engine.matchOrder order).2 =
      (book engine).withSide (fill order.side order.price order.quantity ((book engine).side order.side.opposite)).kept
        order.side.opposite := by
  have kept := (matchOrder_fills valid order live).kept
  apply book_eq order.side
  · rw [book_side, matchOrder_own, withSide_own, book_side]
  · rw [book_side, kept, withSide_side, book_side]

theorem handleOrderNew_accepts {engine : MatchingEngine} (valid : Valid engine) (order : Order)
    (live : Live (resting (engine.levels order.side.opposite))) :
    ∃ recorded, (engine.handleOrderNew order).trades = engine.trades ++ recorded ∧
      executed recorded = (accept (book engine) order).1 ∧ book (engine.handleOrderNew order) = (accept (book engine) order).2 := by
  have filled := matchOrder_fills valid order live
  have left := filled.left
  have matched := matchOrder_book valid order live
  obtain ⟨recorded, traded, -, executions⟩ := filled.filled
  obtain ⟨quantity, taker⟩ := matchOrder_order engine order
  have id : (engine.matchOrder order).1.orderId = order.orderId := by rw [taker]
  have side : (engine.matchOrder order).1.side = order.side := by rw [taker]
  have present := mem_ids (matchOrder_valid valid order) order.orderId
  rw [accept, book_side, ← left, ← book_side, ← matched]
  rcases handleOrderNew_cases valid order with ⟨done, same⟩ | ⟨remains, missing, position, inserted, after⟩
  · rw [id, present] at done
    rw [same, if_pos done]
    exact ⟨recorded, traded, executions.trans (by rw [book_side]), rfl⟩
  · have rested := Inserted.resting inserted after
    have other := inserted.other
    rw [side] at rested other
    rw [id, present] at missing
    rw [if_neg (not_or.mpr ⟨remains, missing⟩)]
    refine ⟨recorded, inserted.trades.trans traded, executions.trans (by rw [book_side]), ?_⟩
    apply book_eq order.side
    · rw [book_side, rested, withSide_side, book_side]
      refine congrArg (fun taker => orderedInsert (earlier order.side) taker _) ?_
      rw [taker]
    · rw [book_side, other, withSide_opposite, book_side]

/-- A new order whose id does not rest is stored unless it is used up. -/
private theorem handleOrderNew_submits {engine : MatchingEngine} (valid : Valid engine) (order : Order)
    (absent : order.orderId ∉ engine.orderByIDMap) (live : Live (resting (engine.levels order.side.opposite))) :
    (∃ recorded, (engine.handleOrderNew order).trades = engine.trades ++ recorded ∧
        executed recorded = (submit (book engine) order).executions) ∧
      book (engine.handleOrderNew order) = (submit (book engine) order).book ∧
      (engine.matchOrder order).1.quantity = (submit (book engine) order).residual := by
  have left := (matchOrder_fills valid order live).left
  have missing := matchOrder_absent valid absent
  rw [mem_ids (matchOrder_valid valid order), matchOrder_book valid order live] at missing
  obtain ⟨recorded, traded, executions, after⟩ := handleOrderNew_accepts valid order live
  refine ⟨⟨recorded, traded, executions⟩, ?_, ?_⟩
  · rw [after, accept, submit]
    simp only [missing, or_false]
  · rw [submit, book_side]
    exact left

/-- What processing an order does has this outcome. -/
structure Serves (engine : MatchingEngine) (order : Order) (outcome : Outcome) (next : MatchingEngine) (recorded : List Trade) :
    Prop where
  ran : engine.processOrder order = some next
  trades : next.trades = engine.trades ++ recorded
  executions : executed recorded = outcome.executions
  book : book next = outcome.book
  residual : (engine.matchOrder order).1.quantity = outcome.residual

theorem processOrder_submits {orders : List Order} {engine : MatchingEngine}
    (reached : MatchingEngine.processOrders {} orders = some engine)
    (live : Live (resting (engine.bidPriceLevelMap ++ engine.askPriceLevelMap))) {order : Order} (new : order.action = .new)
    (absent : order.orderId ∉ engine.orderByIDMap) :
    ∃ next recorded, Serves engine order (submit (book engine) order) next recorded := by
  have valid := reached_valid reached
  have facing : Live (resting (engine.levels order.side.opposite)) := by
    intro other member
    apply live
    rw [resting_append, mem_append]
    cases side : order.side with
    | buy => exact .inr (by rw [side] at member; exact member)
    | sell => exact .inl (by rw [side] at member; exact member)
  obtain ⟨⟨recorded, traded, executions⟩, rested, left⟩ := handleOrderNew_submits valid order absent facing
  exact ⟨_, recorded, processOrder_new engine new, traded, executions, rested, left⟩

theorem processOrder_submits_sweep :
    let engine := (({} : MatchingEngine).handleOrderNew ⟨.sell, .new, 1, 101, 5⟩).handleOrderNew ⟨.sell, .new, 2, 100, 3⟩
    ∃ next recorded, Serves engine ⟨.buy, .new, 3, 101, 6⟩ (submit (book engine) ⟨.buy, .new, 3, 101, 6⟩) next recorded :=
  @processOrder_submits [⟨.sell, .new, 1, 101, 5⟩, ⟨.sell, .new, 2, 100, 3⟩] _ rfl (by unfold Live; decide)
    ⟨.buy, .new, 3, 101, 6⟩ rfl (by decide)

end FinanceTech.Proofs.MatchingPriority
