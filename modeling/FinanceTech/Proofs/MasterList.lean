import FinanceTech.Proofs.EngineEquivalence
import FinanceTech.Proofs.LevelQuantity
import FinanceTech.Proofs.PriceTimeRefinement

/-! The master list of the iterator engine. Inserting and cancelling keep it in
step with the levels and the index; matching takes a filled order out of those
two only, so the list outgrows them by one order for each fill. -/

namespace FinanceTech.Proofs.MasterList
open List Library Matching
open Matching.Pointer.MatchState PriceTime PriceTimeFill MatchingLoops MatchingPointers MatchingSteps MatchingRepresentation
open LevelQuantity MatchingPriority PriceTimeRefinement IteratorHeap EngineEquivalence

def iterators (engine : Iterator.OrderMatchingEngine) (levels : Iterator.PriceLevelMap) : List Address :=
  levels.flatMap fun entry => ((engine.lists.dlookup entry.2).getD []).map Simple.PriceOrder.orderIter

/-- The master list holds the resting orders and no others: the iterators of the
levels are its own, and so are those of the index, each under its order's id. -/
structure HoldsResting (engine : Iterator.OrderMatchingEngine) : Prop where
  once : engine.orders.keys.Nodup
  listed : iterators engine (engine.bidPriceLevelMap ++ engine.askPriceLevelMap) ~ engine.orders.keys
  indexed : ∀ id block, engine.orderByIDMap.lookup id = some block →
    ∃ order, engine.orders.dlookup block.orderIter = some order ∧ order.orderId = id
  named : ∀ handle ∈ engine.orders.keys, ∃ id block, engine.orderByIDMap.lookup id = some block ∧ block.orderIter = handle

/-- Whether the order goes through matching: a new one, or one that moves a
resting order to another price. -/
def enters (engine : Iterator.OrderMatchingEngine) (order : Order) : Bool :=
  match order.action with
  | .new => true
  | .amend =>
    match (engine.orderByIDMap.lookup order.orderId).bind fun block => engine.orders.dlookup block.orderIter with
    | none => false
    | some resting => resting.side = order.side ∧ resting.price ≠ order.price
  | _ => false

def Takes (order : Order) (best : Option Order) : Prop :=
  0 < order.quantity ∧ ∃ resting ∈ best, crossing order.side order.price resting = true ∧ resting.quantity ≤ order.quantity

/-- The order is matched and fills the best order of the other side. -/
def FillsBest (engine : Iterator.OrderMatchingEngine) (order : Order) : Prop :=
  enters engine order = true ∧ Takes order (engine.firstOrder (engine.levels order.side.opposite))

/-- The order at the head of a side. -/
def best (levels : Pointer.PriceLevelMap) : Option Order := levels.head?.bind fun entry => entry.2.orders.head?.map Pointer.Node.order

theorem matchOrderList_length (state : Pointer.MatchState) (nodes : List Pointer.Node) :
    (matchOrderList state nodes).2.length ≤ nodes.length := by
  have suffix := (matchOrderList_suffix state nodes).length_le
  rwa [length_map, length_map] at suffix

theorem matchLevels_length (state : Pointer.MatchState) (levels : Pointer.PriceLevelMap) :
    (resting (matchLevels state levels).2).length ≤ (resting levels).length := by
  induction levels generalizing state with
  | nil => exact Nat.le_refl _
  | cons entry rest ih =>
    have shorter := matchOrderList_length state entry.2.orders
    rw [matchLevels_cons]
    split
    next =>
      split
      next =>
        rw [resting_cons, length_append]
        exact Nat.le_add_left_of_le (ih _)
      next =>
        rw [resting_cons, resting_cons, length_append, length_append, length_map, length_map]
        exact Nat.add_le_add_right shorter _
    next => exact Nat.le_refl _

/-- A level loses an order exactly when the first one is filled. -/
theorem matchOrderList_same (state : Pointer.MatchState) (node : Pointer.Node) (rest : List Pointer.Node) :
    (matchOrderList state (node :: rest)).2.length = (node :: rest).length ↔ ¬ node.order.quantity ≤ state.order.quantity := by
  rw [matchOrderList, addTrade_order]
  split
  next fits =>
    refine ⟨fun same => ?_, fun larger => absurd fits larger⟩
    let filled : Pointer.MatchState := { state.addTrade node.order with
      order.quantity := state.order.quantity - node.order.quantity
      orderByIDMap := (state.addTrade node.order).orderByIDMap.erase node.order.orderId }
    exact absurd (same.symm.trans_le (matchOrderList_length filled rest)) (Nat.not_succ_le_self _)
  next larger => exact ⟨fun _ => larger, fun _ => rfl⟩

private theorem matchLevels_same {state : Pointer.MatchState} {levels : Pointer.PriceLevelMap}
    (valid : SideValid state.order.side.opposite levels) :
    (resting (matchLevels state levels).2).length = (resting levels).length ↔ ¬ Takes state.order (best levels) := by
  cases levels with
  | nil =>
    refine ⟨fun _ => ?_, fun _ => rfl⟩
    rintro ⟨-, resting, none, -⟩
    cases none
  | cons entry rest =>
    obtain ⟨stocked, placed⟩ := valid.stocked entry mem_cons_self
    obtain ⟨node, others, orders⟩ := exists_cons_of_ne_nil stocked
    have first : best (entry :: rest) = some node.order := by
      rw [best, head?_cons, Option.bind_some, orders]
      rfl
    have price : crossing state.order.side state.order.price node.order = Pointer.crosses state.order.side entry.1 state.order.price := by
      rw [← crosses_eq, (placed node (orders ▸ mem_cons_self)).2]
    have same := matchOrderList_same state node others
    rw [← orders] at same
    have shorter := matchLevels_length (matchOrderList state entry.2.orders).1 rest
    simp only [Takes, first, Option.mem_some_iff, exists_eq_left', price]
    rw [matchLevels_cons]
    split
    next runs =>
      simp only [runs, true_and]
      rw [← same, resting_cons, length_append, length_map]
      split
      next empty =>
        have held : entry.2.orders.length = others.length + 1 := congrArg length orders
        rw [empty, length_nil]
        omega
      next =>
        rw [resting_cons, length_append, length_map]
        exact Nat.add_right_cancel_iff
    next stops =>
      refine ⟨fun _ takes => stops ⟨takes.1, takes.2.1⟩, fun _ => rfl⟩

/-- How many orders rest. -/
def restingCount (engine : Pointer.MatchingEngine) : Nat := (resting (engine.bidPriceLevelMap ++ engine.askPriceLevelMap)).length

/-- The iterator engine stores what the pointer engine does, and this many more
orders in its master list. -/
structure Owns (first : Pointer.MatchingEngine) (second : Iterator.OrderMatchingEngine) (surplus : Nat) : Prop where
  valid : Valid first
  stores : Stores first second
  once : second.orders.keys.Nodup
  count : second.orders.length = restingCount first + surplus

section Owns

variable {first next : Pointer.MatchingEngine} {second after : Iterator.OrderMatchingEngine} {order : Order} {surplus : Nat}

theorem restingCount_sides (engine : Pointer.MatchingEngine) (side : OrderSide) :
    restingCount engine = (resting (engine.levels side)).length + (resting (engine.levels side.opposite)).length := by
  rw [restingCount, resting_append, length_append]
  cases side with
  | buy => rfl
  | sell => exact Nat.add_comm _ _

private theorem matchOrder_owns (owns : Owns first second surplus) (order : Order) :
    ∃ after filled, second.matchOrder order = some ((first.matchOrder order).1, after) ∧
      Owns (first.matchOrder order).2 after (surplus + filled) ∧
      (filled = 0 ↔ ¬ Takes order (best (first.levels order.side.opposite))) := by
  obtain ⟨after, ran, related, keys⟩ := matchOrder_simulates owns.valid owns.stores order
  have side := owns.valid.side order.side.opposite
  have shorter := matchLevels_length ⟨order, first.orderByIDMap, first.trades⟩ (first.levels order.side.opposite)
  have same := @matchLevels_same ⟨order, first.orderByIDMap, first.trades⟩ _ side
  have before := restingCount_sides first order.side
  have left := restingCount_sides (first.matchOrder order).2 order.side
  have count := owns.count
  rw [matchOrder_own, matchOrder_opposite] at left
  let filled := restingCount first - restingCount (first.matchOrder order).2
  refine ⟨after, filled, ran, ⟨matchOrder_valid owns.valid order, related, keys ▸ owns.once, ?_⟩, ?_⟩
  · have whole := congrArg length keys
    rw [Cells.length_keys, Cells.length_keys] at whole
    omega
  · rw [← same]
    omega

theorem getOrderPriceList_orders (engine : Iterator.OrderMatchingEngine) (side : OrderSide) (price : Price) :
    (engine.getOrderPriceList side price).1.orders = engine.orders := by
  rw [Iterator.OrderMatchingEngine.getOrderPriceList]
  split
  · rfl
  · exact iterator_setLevels_orders engine _ side

private theorem insertOrder_orders (engine : Iterator.OrderMatchingEngine) (order : Order) : (engine.insertOrder order).orders =
    engine.orders ++ [⟨(engine.getOrderPriceList order.side order.price).1.fresh, order⟩] := by
  rw [← getOrderPriceList_orders engine order.side order.price]
  rfl

private theorem cancelOrder_orders {engine next : Iterator.OrderMatchingEngine} {id : OrderID} {block : Iterator.ReferencesBlock}
    (ran : engine.cancelOrder id block = some next) : next.orders = engine.orders.kerase block.orderIter := by
  simp only [Iterator.OrderMatchingEngine.cancelOrder, Option.bind_eq_bind, Option.bind_eq_some_iff] at ran
  obtain ⟨order, -, list, -, left, -, ran⟩ := ran
  split at ran
  · obtain rfl := Option.some.inj ran
    exact iterator_setLevels_orders _ _ order.side
  · obtain rfl := Option.some.inj ran
    rfl

private theorem insertOrder_owns (owns : Owns first second surplus) (absent : order.orderId ∉ first.orderByIDMap) :
    Owns (first.insertOrder order) (second.insertOrder order) surplus := by
  obtain ⟨position, inserted, after⟩ := insertOrder_inserts owns.valid absent
  have own := Inserted.resting inserted after
  have before := restingCount_sides first order.side
  have left := restingCount_sides (first.insertOrder order) order.side
  rw [own, inserted.other, orderedInsert_length] at left
  have count := owns.count
  obtain ⟨-, opened⟩ := getOrderPriceList_simulates owns.stores order.side order.price
  have orders := insertOrder_orders second order
  have unused : (second.getOrderPriceList order.side order.price).1.fresh ∉ second.orders.keys := by
    rw [← getOrderPriceList_orders second order.side order.price]
    intro member
    exact (opened.orders _ member).ne opened.fresh
  refine ⟨after, insertOrder_simulates owns.stores order, ?_, ?_⟩
  · rw [orders, keys_append]
    exact nodup_append_comm.mp (nodup_cons.mpr ⟨unused, owns.once⟩)
  · rw [orders, length_append, length_singleton]
    omega

theorem cancelOrder_owns {position : Position} (owns : Owns first second surplus) (at' : position.At first) :
    ∃ next after, first.cancelOrder position.node.order.orderId position.block = some next ∧
      second.cancelOrder position.node.order.orderId (renamed position.block) = some after ∧
      Cancelled first position next ∧ Owns next after surplus := by
  obtain ⟨next, after, ran, followed, gone, related⟩ := cancelOrder_simulates owns.valid owns.stores at'
  have orders : after.orders = second.orders.kerase position.node.pointer := cancelOrder_orders followed
  have held : position.node.pointer ∈ second.orders.keys := by
    rw [← dlookup_isSome, owns.stores.order_at at']
    rfl
  have own := at_resting at'
  have left := Cancelled.remains gone
  have before := restingCount_sides first position.side
  have rest := restingCount_sides next position.side
  have count := owns.count
  rw [book_side] at own
  rw [own, length_append, length_cons] at before
  rw [left, gone.other, length_append] at rest
  refine ⟨next, after, ran, followed, gone, gone.valid owns.valid at', related, ?_, ?_⟩
  · rw [orders]
    exact owns.once.sublist ((kerase_sublist _ _).map Sigma.fst)
  · have shorter := Cells.length_kerase held
    rw [orders]
    omega

private theorem requantify_owns {position : Position} {quantity : Quantity} (owns : Owns first second surplus) (at' : position.At first)
    (changed : Requantified first position quantity next) (change : Order → Order)
    (stores : Stores next { second with orders := Cells.modify second.orders position.node.pointer change }) :
    Owns next { second with orders := Cells.modify second.orders position.node.pointer change } surplus := by
  have own := at_resting at'
  have before := restingCount_sides first position.side
  have rest := restingCount_sides next position.side
  have count := owns.count
  rw [book_side] at own
  rw [own, length_append, length_cons] at before
  rw [Requantified.remains changed, changed.other, length_append, length_cons] at rest
  refine ⟨changed.valid owns.valid at', stores, ?_, ?_⟩
  · rw [Cells.modify_keys]
    exact owns.once
  · rw [Cells.modify, length_map]
    omega

theorem handleOrderNew_owns (owns : Owns first second surplus) (order : Order) :
    ∃ after filled, second.handleOrderNew order = some after ∧ Owns (first.handleOrderNew order) after (surplus + filled) ∧
      (filled = 0 ↔ ¬ Takes order (best (first.levels order.side.opposite))) := by
  obtain ⟨matched, filled, ran, left, takes⟩ := matchOrder_owns owns order
  rw [handleOrderNew_eq, Iterator.OrderMatchingEngine.handleOrderNew, ran]
  simp only [Option.bind_eq_bind, Option.bind_some, left.stores.index.mem]
  split
  · exact ⟨matched, filled, rfl, left, takes⟩
  · split
    · exact ⟨matched, filled, rfl, left, takes⟩
    next absent => exact ⟨_, filled, rfl, insertOrder_owns left absent, takes⟩

private theorem enters_eq (owns : Owns first second surplus) (order : Order) : enters second order = isMatched first order := by
  have read : (second.orderByIDMap.lookup order.orderId).bind (fun block => second.orders.dlookup block.orderIter) =
      (first.orderByIDMap.lookup order.orderId).bind fun block => first.order? block.order := by
    rw [owns.stores.index order.orderId]
    cases found : first.orderByIDMap.lookup order.orderId with
    | none => rfl
    | some block =>
      obtain ⟨position, at', -, rfl⟩ := locate owns.valid found
      exact (owns.stores.order_at at').trans (at'.order? owns.valid).symm
  rw [enters, isMatched, moves, read]
  cases order.action <;> rfl

private theorem fillsBest_iff (owns : Owns first second surplus) (order : Order) : FillsBest second order ↔
    isMatched first order = true ∧ Takes order (best (first.levels order.side.opposite)) := by
  have head : second.firstOrder (second.levels order.side.opposite) = best (first.levels order.side.opposite) := by
    rw [owns.stores.levels]
    exact firstOrder_eq (owns.stores.heap_sides order.side.opposite)
  rw [FillsBest, enters_eq owns, head]

private theorem handleOrderCancel_owns (owns : Owns first second surplus) (order : Order) :
    ∃ next after, first.handleOrderCancel order = some next ∧ second.handleOrderCancel order = some after ∧
      Owns next after surplus := by
  rw [Pointer.MatchingEngine.handleOrderCancel, Iterator.OrderMatchingEngine.handleOrderCancel, owns.stores.index order.orderId]
  cases found : first.orderByIDMap.lookup order.orderId with
  | none => exact ⟨first, second, rfl, rfl, owns⟩
  | some block =>
    obtain ⟨position, at', id, rfl⟩ := locate owns.valid found
    have read : second.orders.dlookup (renamed position.block).orderIter = some position.node.order := owns.stores.order_at at'
    simp only [Option.map_some, at'.order? owns.valid, read, Option.bind_eq_bind, Option.bind_some]
    split
    · obtain ⟨next, after, ran, followed, -, left⟩ := cancelOrder_owns owns at'
      rw [← id]
      exact ⟨next, after, ran, followed, left⟩
    · exact ⟨first, second, rfl, rfl, owns⟩

private theorem handleOrderAmend_owns (owns : Owns first second surplus) (order : Order) :
    ∃ next after filled, first.handleOrderAmend order = some next ∧ second.handleOrderAmend order = some after ∧
      Owns next after (surplus + filled) ∧
      (filled = 0 ↔ ¬ (moves first order = true ∧ Takes order (best (first.levels order.side.opposite)))) := by
  have still : moves first order = false →
      ((0 : Nat) = 0 ↔ ¬ (moves first order = true ∧ Takes order (best (first.levels order.side.opposite)))) := by
    intro quiet
    rw [quiet]
    exact ⟨fun _ both => Bool.false_ne_true both.1, fun _ => rfl⟩
  rw [Pointer.MatchingEngine.handleOrderAmend, Iterator.OrderMatchingEngine.handleOrderAmend, owns.stores.index order.orderId]
  cases found : first.orderByIDMap.lookup order.orderId with
  | none =>
    have unknown := unknown_of_none owns.valid found
    exact ⟨first, second, 0, rfl, rfl, owns, still (moves_unknown owns.valid unknown)⟩
  | some block =>
    obtain ⟨position, at', id, rfl⟩ := locate owns.valid found
    have read : second.orders.dlookup (renamed position.block).orderIter = some position.node.order := owns.stores.order_at at'
    simp only [Option.map_some, at'.order? owns.valid, at'.level? owns.valid, read, Option.bind_eq_bind, Option.bind_some]
    split
    next other =>
      have unknown := unknown_of_side owns.valid at' id other
      exact ⟨first, second, 0, rfl, rfl, owns, still (moves_unknown owns.valid unknown)⟩
    next same =>
      have side : position.side = order.side := at'.side.symm.trans (not_not.mp same)
      have moved := moves_iff owns.valid at' id side
      split
      next price =>
        obtain ⟨next, after, ran, followed, gone, left⟩ := cancelOrder_owns owns at'
        obtain ⟨final, filled, reached, ends, takes⟩ := handleOrderNew_owns left order
        have other := gone.other
        rw [side] at other
        rw [other] at takes
        rw [← id, ran, followed]
        refine ⟨_, final, filled, rfl, reached, ends, takes.trans (not_congr ?_)⟩
        exact ⟨fun takes => ⟨moved.mpr price, takes⟩, fun both => both.2⟩
      next price =>
        have quiet : moves first order = false := Bool.eq_false_iff.mpr fun moves => price (moved.mp moves)
        have changed := requantify owns.valid at' order.quantity
        have stores := requantify_simulates owns.stores position.block.priceLevel position.block.order
          (fun level => { level with
            quantity := ((level.quantity.toUInt64 - position.node.order.quantity).toUInt32.toUInt64 + order.quantity).toUInt32 })
          (fun original => { original with quantity := order.quantity }) fun _ => ⟨rfl, rfl⟩
        exact ⟨_, _, 0, rfl, rfl, requantify_owns owns at' changed _ stores, still quiet⟩

theorem processOrder_owns (owns : Owns first second surplus) (order : Order) :
    ∃ next after filled, first.processOrder order = some next ∧ second.processOrder order = some after ∧
      Owns next after (surplus + filled) ∧ (filled = 0 ↔ ¬ FillsBest second order) := by
  rw [fillsBest_iff owns, isMatched, Pointer.MatchingEngine.processOrder, Iterator.OrderMatchingEngine.processOrder]
  have quiet : (0 : Nat) = 0 ↔ ¬ (false = true ∧ Takes order (best (first.levels order.side.opposite))) :=
    ⟨fun _ both => Bool.false_ne_true both.1, fun _ => rfl⟩
  cases order.action with
  | new =>
    obtain ⟨after, filled, ran, left, takes⟩ := handleOrderNew_owns owns order
    exact ⟨_, after, filled, rfl, ran, left, takes.trans (not_congr ⟨fun takes => ⟨rfl, takes⟩, fun both => both.2⟩)⟩
  | cancel =>
    obtain ⟨next, after, ran, followed, left⟩ := handleOrderCancel_owns owns order
    exact ⟨next, after, 0, ran, followed, left, quiet⟩
  | amend => exact handleOrderAmend_owns owns order
  | recovery | recoveryEnd => exact ⟨first, second, 0, rfl, rfl, owns, quiet⟩

theorem iterators_pointers {levels : Pointer.PriceLevelMap} (heap : Heap second.orders second.lists levels) :
    iterators second (pointers levels) = (Pointer.PriceLevelMap.nodes levels).map Pointer.Node.pointer := by
  induction levels with
  | nil => rfl
  | cons entry rest ih =>
    have list := heap.list entry mem_cons_self
    have others := ih (heap.subset (subset_cons_self entry rest))
    rw [nodes_cons, map_append, ← others]
    have here : ((second.lists.dlookup entry.2.address).getD []).map Simple.PriceOrder.orderIter =
        entry.2.orders.map Pointer.Node.pointer := by
      rw [list, Option.getD_some, map_map]
      rfl
    rw [← here]
    rfl

theorem pointers_subperm (owns : Owns first second surplus) :
    (Pointer.PriceLevelMap.nodes (first.bidPriceLevelMap ++ first.askPriceLevelMap)).map Pointer.Node.pointer <+~
      second.orders.keys := by
  apply (owns.valid.linked.addresses.sublist (pointers_sublist _)).subperm
  intro handle member
  obtain ⟨node, inside, rfl⟩ := mem_map.mp member
  rw [← dlookup_isSome, owns.stores.heap.order node inside]
  rfl

theorem holdsResting_iff (owns : Owns first second surplus) : HoldsResting second ↔ surplus = 0 := by
  have levels : second.bidPriceLevelMap ++ second.askPriceLevelMap = pointers (first.bidPriceLevelMap ++ first.askPriceLevelMap) := by
    rw [pointers_append]
    exact congrArg₂ (· ++ ·) (owns.stores.levels .buy) (owns.stores.levels .sell)
  have held := iterators_pointers owns.stores.heap
  have count := owns.count
  have nodes : restingCount first = (Pointer.PriceLevelMap.nodes (first.bidPriceLevelMap ++ first.askPriceLevelMap)).length :=
    length_map _
  constructor
  · intro holds
    have same := holds.listed.length_eq
    rw [levels, held, length_map, Cells.length_keys] at same
    omega
  · rintro rfl
    have perm := (pointers_subperm owns).perm_of_length_le (by rw [length_map, Cells.length_keys]; omega)
    refine ⟨owns.once, ?_, ?_, ?_⟩
    · rw [levels, held]
      exact perm
    · intro id block found
      rw [owns.stores.index id] at found
      obtain ⟨pointer, known, rfl⟩ := Option.map_eq_some_iff.mp found
      obtain ⟨position, at', named, rfl⟩ := locate owns.valid known
      exact ⟨position.node.order, owns.stores.order_at at', named⟩
    · intro handle member
      obtain ⟨node, inside, rfl⟩ := mem_map.mp (perm.mem_iff.mpr member)
      obtain ⟨entry, present, listed⟩ := mem_nodes.mp inside
      have sided : ∃ side, entry ∈ first.levels side := by
        rcases mem_append.mp present with bid | ask
        · exact ⟨.buy, bid⟩
        · exact ⟨.sell, ask⟩
      obtain ⟨side, present⟩ := sided
      obtain ⟨position, at', -, rfl, -⟩ := position_of_mem owns.valid present listed
      refine ⟨position.node.order.orderId, renamed position.block, ?_, rfl⟩
      rw [owns.stores.index, indexed owns.valid at']
      rfl

end Owns

theorem initial_owns : Owns {} {} 0 := ⟨initial, initial_stores, nodup_nil, rfl⟩

/-- In every reached state the master list holds the resting orders and no
others exactly when no order that is matched fills the best one it meets. -/
theorem master_list_iff (orders : List Order) :
    (∀ before engine, before <+: orders → Iterator.OrderMatchingEngine.processOrders {} before = some engine →
        HoldsResting engine) ↔
      ∀ before order after engine, orders = before ++ order :: after →
        Iterator.OrderMatchingEngine.processOrders {} before = some engine → ¬ FillsBest engine order := by
  refine @Runs.foldlM_throughout_iff _ _ Iterator.OrderMatchingEngine.processOrder (fun engine => ∃ first surplus, Owns first engine surplus)
    HoldsResting (fun engine order => ¬ FillsBest engine order) orders {} ?_ ?_ ?_
  · exact (holdsResting_iff initial_owns).mpr rfl
  · intro before _
    apply Runs.foldlM_succeeds _ before ⟨{}, 0, initial_owns⟩
    rintro engine order ⟨first, surplus, owns⟩
    obtain ⟨next, after, filled, -, ran, left, -⟩ := processOrder_owns owns order
    exact ⟨after, ran, next, _, left⟩
  · rintro engine order next ⟨first, surplus, owns⟩ - ran holds
    obtain rfl := (holdsResting_iff owns).mp holds
    obtain ⟨ahead, after, filled, -, same, left, fills⟩ := processOrder_owns owns order
    obtain rfl := Option.some.inj (same.symm.trans ran)
    rw [holdsResting_iff left, Nat.zero_add, fills]

/-- A bid that is sold stays in the master list with nothing left. -/
theorem filled_bid_stays :
    ∃ engine, Iterator.OrderMatchingEngine.processOrders {} [⟨.buy, .new, 1, 100, 5⟩, ⟨.sell, .new, 2, 100, 5⟩] = some engine ∧
      engine.orders.map Sigma.snd = [⟨.buy, .new, 1, 100, 0⟩] ∧ engine.bidPriceLevelMap = [] ∧ engine.askPriceLevelMap = [] ∧
      engine.getOrdersCount = 0 ∧ ¬ HoldsResting engine := by
  refine ⟨_, rfl, by decide, by decide, by decide, by decide, fun holds => ?_⟩
  have same := holds.listed.length_eq
  revert same
  decide

end FinanceTech.Proofs.MasterList
