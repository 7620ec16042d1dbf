import FinanceTech.Proofs.IteratorHeap
import FinanceTech.Proofs.MatchingRepresentation

/-! The iterator engine and the pointer engine cannot be told apart: each of their
operations keeps the heap of the one and the levels of the other in step. -/

namespace FinanceTech.Proofs.EngineEquivalence
open List Library Matching MatchingLoops MatchingPointers MatchingSteps MatchingRepresentation IteratorHeap

/-- The iterator engine holds what the pointer engine holds, each thing under
the same address. -/
structure Stores (first : Pointer.MatchingEngine) (second : Iterator.OrderMatchingEngine) : Prop where
  levels : ∀ side, second.levels side = pointers (first.levels side)
  heap : Heap second.orders second.lists (first.bidPriceLevelMap ++ first.askPriceLevelMap)
  index : Indexes first.orderByIDMap second.orderByIDMap
  trades : second.trades = first.trades
  fresh : second.fresh = first.fresh
  orders : ∀ handle ∈ second.orders.keys, handle < first.fresh
  lists : ∀ handle ∈ second.lists.keys, handle < first.fresh

section Stores

variable {first next : Pointer.MatchingEngine} {second after : Iterator.OrderMatchingEngine}

theorem Stores.heap_sides (stores : Stores first second) (side : OrderSide) :
    Heap second.orders second.lists (first.levels side ++ first.levels side.opposite) :=
  stores.heap.subset (sides_perm first side).symm.subset

theorem levels_of_sides {side : OrderSide} (own : after.levels side = pointers (next.levels side))
    (other : after.levels side.opposite = pointers (next.levels side.opposite)) :
    ∀ wanted, after.levels wanted = pointers (next.levels wanted) := by
  intro wanted
  cases side <;> cases wanted <;> assumption

theorem heap_of_sides (side : OrderSide) (heap : Heap after.orders after.lists (next.levels side ++ next.levels side.opposite)) :
    Heap after.orders after.lists (next.bidPriceLevelMap ++ next.askPriceLevelMap) :=
  heap.subset (sides_perm next side).subset

theorem levels_congr {engine : Iterator.OrderMatchingEngine} (bids : after.bidPriceLevelMap = engine.bidPriceLevelMap)
    (asks : after.askPriceLevelMap = engine.askPriceLevelMap) (side : OrderSide) : after.levels side = engine.levels side := by
  cases side with
  | buy => exact bids
  | sell => exact asks

@[simp] theorem iterator_setLevels_levels (engine : Iterator.OrderMatchingEngine) (levels : Iterator.PriceLevelMap)
    (side : OrderSide) : (engine.setLevels levels side).levels side = levels := by cases side <;> rfl

@[simp] theorem iterator_setLevels_self (engine : Iterator.OrderMatchingEngine) (side : OrderSide) :
    engine.setLevels (engine.levels side) side = engine := by cases side <;> rfl

@[simp] theorem iterator_setLevels_opposite (engine : Iterator.OrderMatchingEngine) (levels : Iterator.PriceLevelMap)
    (side : OrderSide) : (engine.setLevels levels side).levels side.opposite = engine.levels side.opposite := by
  cases side <;> rfl

@[simp] theorem iterator_setLevels_fresh (engine : Iterator.OrderMatchingEngine) (levels : Iterator.PriceLevelMap)
    (side : OrderSide) : (engine.setLevels levels side).fresh = engine.fresh := by cases side <;> rfl

@[simp] theorem iterator_setLevels_orders (engine : Iterator.OrderMatchingEngine) (levels : Iterator.PriceLevelMap)
    (side : OrderSide) : (engine.setLevels levels side).orders = engine.orders := by cases side <;> rfl

@[simp] theorem iterator_setLevels_lists (engine : Iterator.OrderMatchingEngine) (levels : Iterator.PriceLevelMap)
    (side : OrderSide) : (engine.setLevels levels side).lists = engine.lists := by cases side <;> rfl

@[simp] theorem iterator_setLevels_index (engine : Iterator.OrderMatchingEngine) (levels : Iterator.PriceLevelMap)
    (side : OrderSide) : (engine.setLevels levels side).orderByIDMap = engine.orderByIDMap := by cases side <;> rfl

@[simp] theorem iterator_setLevels_trades (engine : Iterator.OrderMatchingEngine) (levels : Iterator.PriceLevelMap)
    (side : OrderSide) : (engine.setLevels levels side).trades = engine.trades := by cases side <;> rfl

theorem matchOrder_simulates (valid : Valid first) (stores : Stores first second) (order : Order) :
    ∃ after, second.matchOrder order = some ((first.matchOrder order).1, after) ∧ Stores (first.matchOrder order).2 after ∧
      after.orders.keys = second.orders.keys := by
  have heap := stores.heap_sides order.side.opposite
  have distinct := (valid.links order.side.opposite).addresses
  rw [opposite_opposite] at heap distinct
  have same : Same ⟨order, first.orderByIDMap, first.trades⟩
      ⟨order, second.orders, second.lists, second.orderByIDMap, second.trades⟩ := ⟨rfl, stores.index, stores.trades⟩
  obtain ⟨state, ran, ends, walked⟩ := matchLevels_simulates same distinct heap
  let after : Iterator.OrderMatchingEngine := { second.setLevels
      (pointers (Pointer.MatchState.matchLevels ⟨order, first.orderByIDMap, first.trades⟩ (first.levels order.side.opposite)).2)
      order.side.opposite with
    orders := state.orders, lists := state.lists, orderByIDMap := state.orderByIDMap, trades := state.trades }
  have matched : second.matchOrder order = some (state.order, after) := by
    rw [Iterator.OrderMatchingEngine.matchOrder, stores.levels, ran]
    rfl
  have sides : ∀ side, after.levels side = (second.setLevels _ order.side.opposite).levels side := levels_congr rfl rfl
  refine ⟨after, matched.trans (congrArg (fun taker => some (taker, after)) ends.order), ?_, walked.orders⟩
  refine ⟨@levels_of_sides _ _ order.side.opposite ?_ ?_, heap_of_sides order.side.opposite ?_, ends.index, ends.trades, ?_, ?_, ?_⟩
  · rw [sides, iterator_setLevels_levels, matchOrder_opposite]
  · rw [sides, iterator_setLevels_opposite, opposite_opposite, matchOrder_own]
    exact stores.levels order.side
  · rw [opposite_opposite, matchOrder_own, matchOrder_opposite]
    exact walked.heap
  · rw [matchOrder_fresh, ← stores.fresh]
    exact iterator_setLevels_fresh second _ order.side.opposite
  · rw [matchOrder_fresh]
    exact walked.orders ▸ stores.orders
  · rw [matchOrder_fresh]
    exact walked.lists ▸ stores.lists

/-- A new empty level, linked into the one engine and allocated by the other. -/
private theorem createLevel_simulates (stores : Stores first second) (side : OrderSide) {price : Price} {levels : Pointer.PriceLevelMap}
    (split : ∀ entry ∈ levels, entry = ⟨price, { address := first.fresh }⟩ ∨ entry ∈ first.levels side) :
    Stores { first.setLevels levels side with fresh := first.fresh + 1 }
      { second.setLevels (pointers levels) side with lists := second.lists ++ [⟨first.fresh, []⟩], fresh := first.fresh + 1 } := by
  have unused : first.fresh ∉ second.lists.keys := fun member => Nat.lt_irrefl _ (stores.lists _ member)
  have heap := stores.heap_sides side
  have own : ({ first.setLevels levels side with fresh := first.fresh + 1 } : Pointer.MatchingEngine).levels side = levels := by
    rw [withFresh_levels, setLevels_levels]
  have other : ({ first.setLevels levels side with fresh := first.fresh + 1 } : Pointer.MatchingEngine).levels side.opposite =
      first.levels side.opposite := by
    rw [withFresh_levels, setLevels_opposite]
  have parts : ∀ entry ∈ levels ++ first.levels side.opposite, entry = ⟨price, { address := first.fresh }⟩ ∨
      entry ∈ first.levels side ++ first.levels side.opposite := by
    intro entry member
    rcases mem_append.mp member with member | member
    · exact (split entry member).imp id (mem_append_left _)
    · exact .inr (mem_append_right _ member)
  refine ⟨@levels_of_sides _ _ side ?_ ?_, heap_of_sides side ⟨?_, ?_⟩, ?_, ?_, rfl, ?_, ?_⟩
  · rw [own]
    exact (levels_congr rfl rfl side).trans (iterator_setLevels_levels second _ side)
  · rw [other, ← stores.levels]
    exact (levels_congr rfl rfl side.opposite).trans (iterator_setLevels_opposite second _ side)
  · rw [own, other]
    intro entry member
    rcases parts entry member with rfl | member
    · exact Cells.dlookup_append_self unused []
    · exact Cells.dlookup_append_some (heap.list entry member) _
  · rw [own, other, iterator_setLevels_orders]
    intro node member
    obtain ⟨entry, present, inside⟩ := mem_nodes.mp member
    rcases parts entry present with rfl | present
    · cases inside
    · exact heap.order node (mem_nodes.mpr ⟨entry, present, inside⟩)
  · have index := stores.index
    rw [← setLevels_index first levels side, ← iterator_setLevels_index second (pointers levels) side] at index
    exact index
  · have trades := stores.trades
    rw [← setLevels_trades first levels side, ← iterator_setLevels_trades second (pointers levels) side] at trades
    exact trades
  · rw [iterator_setLevels_orders]
    exact fun handle member => Nat.lt_succ_of_lt (stores.orders handle member)
  · intro handle member
    rw [keys_append, mem_append] at member
    rcases member with member | member
    · exact Nat.lt_succ_of_lt (stores.lists handle member)
    · cases mem_singleton.mp member
      exact Nat.lt_succ_self _

/-- The level a new order goes to, found or allocated on both sides. -/
theorem getOrderPriceList_simulates (stores : Stores first second) (side : OrderSide) (price : Price) :
    (second.getOrderPriceList side price).2 = (first.getOrderPriceList side price).2 ∧
      Stores (first.getOrderPriceList side price).1 (second.getOrderPriceList side price).1 := by
  have found : (second.levels side).dlookup price = ((first.levels side).dlookup price).map Pointer.PriceLevel.address := by
    rw [stores.levels side, pointers, SortedMap.dlookup_mapValues]
  rw [Pointer.MatchingEngine.getOrderPriceList, Iterator.OrderMatchingEngine.getOrderPriceList, found]
  cases (first.levels side).dlookup price with
  | some level => exact ⟨rfl, stores⟩
  | none =>
    have inserted := SortedMap.insert_mapValues (Pointer.better side) Pointer.PriceLevel.address price
      ({ address := first.fresh } : Pointer.PriceLevel) (first.levels side)
    simp only [Option.map_none, stores.fresh, stores.levels side]
    refine ⟨trivial, ?_⟩
    rw [pointers, inserted]
    exact createLevel_simulates stores side fun entry => SortedMap.mem_of_mem_insert _

theorem insertOrder_simulates (stores : Stores first second) (order : Order) :
    Stores (first.insertOrder order) (second.insertOrder order) := by
  obtain ⟨address, opened⟩ := getOrderPriceList_simulates stores order.side order.price
  let found := first.getOrderPriceList order.side order.price
  let reached := second.getOrderPriceList order.side order.price
  let node := nodeOf found.1 order
  have unused : node.pointer ∉ reached.1.orders.keys := fun member => Nat.lt_irrefl _ (opened.orders _ member)
  have heap := @Heap.append _ _ _ opened.heap found.2 node unused
  have orders : (second.insertOrder order).orders = reached.1.orders ++ [⟨node.pointer, order⟩] :=
    congrArg (fun fresh => reached.1.orders ++ [⟨fresh, order⟩]) opened.fresh
  have lists : (second.insertOrder order).lists =
      Cells.modify reached.1.lists found.2 fun list => list ++ [listed node] := by
    rw [← address, listed, show node.pointer = reached.1.fresh from opened.fresh.symm,
      show node.iter = reached.1.fresh + 1 from congrArg (· + 1) opened.fresh.symm]
    rfl
  have index : (second.insertOrder order).orderByIDMap =
      reached.1.orderByIDMap.insert order.orderId (renamed (reference found.2 node).2) := by
    rw [← address, renamed, reference, show node.pointer = reached.1.fresh from opened.fresh.symm,
      show node.iter = reached.1.fresh + 1 from congrArg (· + 1) opened.fresh.symm]
    rfl
  refine ⟨?_, ?_, ?_, opened.trades, congrArg (· + 2) opened.fresh, ?_, ?_⟩
  · intro side
    rw [insertOrder_levels, pointers_modify fun _ => by rfl]
    exact (levels_congr rfl rfl side).trans (opened.levels side)
  · have whole : (first.insertOrder order).bidPriceLevelMap ++ (first.insertOrder order).askPriceLevelMap =
        Pointer.PriceLevelMap.modify (found.1.bidPriceLevelMap ++ found.1.askPriceLevelMap) found.2 (appended · node) :=
      map_append.symm
    rw [whole, orders, lists]
    exact heap
  · rw [index, insertOrder_index]
    exact opened.index.insert _ _
  · rw [orders]
    intro handle member
    rw [keys_append, mem_append] at member
    rcases member with member | member
    · exact Nat.lt_add_right 2 (opened.orders handle member)
    · cases mem_singleton.mp member
      exact Nat.lt_add_of_pos_right Nat.two_pos
  · rw [lists, Cells.modify_keys]
    exact fun handle member => Nat.lt_add_right 2 (opened.lists handle member)

private theorem handleOrderNew_simulates (valid : Valid first) (stores : Stores first second) (order : Order) :
    ∃ after, second.handleOrderNew order = some after ∧ Stores (first.handleOrderNew order) after := by
  obtain ⟨matched, ran, related, -⟩ := matchOrder_simulates valid stores order
  rw [handleOrderNew_eq, Iterator.OrderMatchingEngine.handleOrderNew, ran]
  simp only [Option.bind_eq_bind, Option.bind_some, related.index.mem]
  split
  · exact ⟨matched, rfl, related⟩
  · split
    · exact ⟨matched, rfl, related⟩
    · exact ⟨_, rfl, insertOrder_simulates related _⟩

private theorem eraseNode_listed (nodes : List Pointer.Node) (iter : Address) :
    Iterator.OrderMatchingEngine.eraseNode (nodes.map listed) iter =
      (Pointer.MatchingEngine.eraseNode nodes iter).map (map listed) := by
  rw [Iterator.OrderMatchingEngine.eraseNode, Pointer.MatchingEngine.eraseNode, any_map, eraseP_map]
  have same : (fun node : Simple.PriceOrder => decide (node.iter = iter)) ∘ listed = fun node => decide (node.iter = iter) := rfl
  rw [same]
  split <;> rfl

variable {position : Position}

/-- What the master list holds of an order at a position. -/
theorem Stores.order_at (stores : Stores first second) (at' : position.At first) :
    second.orders.dlookup position.node.pointer = some position.node.order := by
  apply stores.heap.order
  exact mem_nodes.mpr ⟨_, at'.perm.mem_iff.mpr mem_cons_self, at'.node_mem⟩

private theorem Stores.list_at (stores : Stores first second) (at' : position.At first) :
    second.lists.dlookup position.level.address = some (position.level.orders.map listed) := by
  apply stores.heap.list ⟨position.node.order.price, position.level⟩
  exact at'.perm.mem_iff.mpr mem_cons_self

/-- The cells of a cancelled order's level and node are the only ones that
change. -/
theorem Cancelled.heap (valid : Valid first) (heap : Heap second.orders second.lists (first.bidPriceLevelMap ++ first.askPriceLevelMap))
    (at' : position.At first) (cancelled : Cancelled first position next) :
    Heap (second.orders.kerase position.node.pointer) (Cells.modify second.lists position.level.address fun _ =>
      (position.before ++ position.after).map listed) (next.levels position.side ++ next.levels position.side.opposite) := by
  have alone := at'.level_alone valid
  have apart := at'.apart valid Pointer.Node.pointer pointers_sublist
  have whole := heap.subset at'.perm.symm.subset
  have split : ∀ entry ∈ next.levels position.side ++ next.levels position.side.opposite,
      entry ∈ remaining position ∨ entry ∈ position.others first := by
    intro entry member
    rw [cancelled.own, cancelled.other, Position.around] at member
    rw [Position.others]
    simp only [mem_append] at member ⊢
    rcases member with ((front | inside) | back) | other
    · exact .inr (.inl (.inl front))
    · exact .inl inside
    · exact .inr (.inl (.inr back))
    · exact .inr (.inr other)
  have left : ∀ entry ∈ remaining position, entry.2.address = position.level.address ∧
      entry.2.orders = position.before ++ position.after := by
    intro entry member
    rw [remaining] at member
    split at member
    · cases member
    · obtain rfl := mem_singleton.mp member
      exact ⟨rfl, rfl⟩
  constructor
  · intro entry member
    rcases split entry member with inside | outside
    · obtain ⟨address, orders⟩ := left entry inside
      rw [Cells.dlookup_modify, if_pos address, address, orders, whole.list _ mem_cons_self]
      rfl
    · rw [Cells.dlookup_modify_ne (alone entry outside)]
      exact whole.list entry (mem_cons_of_mem _ outside)
  · intro node member
    obtain ⟨entry, present, held⟩ := mem_nodes.mp member
    have stays : node ∈ position.before ++ (position.after ++ Pointer.PriceLevelMap.nodes (position.others first)) := by
      rw [← append_assoc]
      rcases split entry present with inside | outside
      · rw [(left entry inside).2] at held
        exact mem_append_left _ held
      · exact mem_append_right _ (mem_nodes.mpr ⟨entry, outside, held⟩)
    rw [dlookup_kerase_ne (apart node stays)]
    apply whole.order
    rw [nodes_cons, at'.orders, append_assoc]
    exact ((sublist_cons_self _ _).append_left position.before).subset stays

/-- The iterator engine without the node and the order of a position, with all
its levels. -/
def unlinked (engine : Iterator.OrderMatchingEngine) (position : Position) : Iterator.OrderMatchingEngine := { engine with
  lists := Cells.modify engine.lists position.level.address fun _ => (position.before ++ position.after).map listed
  orders := engine.orders.kerase position.node.pointer
  orderByIDMap := engine.orderByIDMap.erase position.node.order.orderId }

/-- Cancelling unlinks, and takes away a level that is left empty. -/
private theorem cancelOrder_unlinks (valid : Valid first) (stores : Stores first second) (at' : position.At first) :
    second.cancelOrder position.node.order.orderId (renamed position.block) =
      if position.before ++ position.after = [] then
        some ((unlinked second position).setLevels ((second.levels position.side).kerase position.node.order.price) position.side)
      else some (unlinked second position) := by
  have order : second.orders.dlookup (renamed position.block).orderIter = some position.node.order := stores.order_at at'
  have list : second.lists.dlookup (renamed position.block).priceLevelOrderList = some (position.level.orders.map listed) :=
    stores.list_at at'
  have left : Iterator.OrderMatchingEngine.eraseNode (position.level.orders.map listed) (renamed position.block).priceOrderIter =
      some ((position.before ++ position.after).map listed) := by
    rw [eraseNode_listed]
    exact congrArg (Option.map (map listed)) (at'.eraseNode valid)
  have sides : (unlinked second position).levels position.side = second.levels position.side := levels_congr rfl rfl _
  rw [Iterator.OrderMatchingEngine.cancelOrder, order, list, ← sides]
  simp only [Option.bind_eq_bind, Option.bind_some, left, List.isEmpty_iff, map_eq_nil_iff, at'.side]
  rfl

/-- Once the levels of the side are those of the pointer engine, the rest is in
step. -/
private theorem unlinked_stores (valid : Valid first) (stores : Stores first second) (at' : position.At first)
    (cancelled : Cancelled first position next) :
    Stores next ((unlinked second position).setLevels (pointers (next.levels position.side)) position.side) := by
  have sides : (unlinked second position).levels position.side.opposite = second.levels position.side.opposite := levels_congr rfl rfl _
  refine ⟨@levels_of_sides _ _ position.side ?_ ?_, heap_of_sides position.side ?_, ?_, ?_, ?_, ?_, ?_⟩
  · rw [iterator_setLevels_levels]
  · rw [iterator_setLevels_opposite, sides, stores.levels, cancelled.other]
  · rw [iterator_setLevels_orders, iterator_setLevels_lists]
    exact Cancelled.heap valid stores.heap at' cancelled
  · rw [iterator_setLevels_index, cancelled.index]
    exact stores.index.erase position.node.order.orderId
  · rw [iterator_setLevels_trades, cancelled.trades]
    exact stores.trades
  · rw [iterator_setLevels_fresh, cancelled.fresh]
    exact stores.fresh
  · rw [iterator_setLevels_orders, cancelled.fresh]
    exact fun handle member => stores.orders handle ((kerase_sublist _ _).map Sigma.fst |>.subset member)
  · rw [iterator_setLevels_lists, cancelled.fresh, unlinked, Cells.modify_keys]
    exact stores.lists

theorem cancelOrder_simulates (valid : Valid first) (stores : Stores first second) (at' : position.At first) :
    ∃ next after, first.cancelOrder position.node.order.orderId position.block = some next ∧
      second.cancelOrder position.node.order.orderId (renamed position.block) = some after ∧
      Cancelled first position next ∧ Stores next after := by
  obtain ⟨next, ran, cancelled⟩ := cancelOrder_cancels valid at'
  have followed := cancelOrder_unlinks valid stores at'
  have related := unlinked_stores valid stores at' cancelled
  have middle : second.levels position.side = pointers position.front ++
      ⟨position.node.order.price, position.level.address⟩ :: pointers position.back := by
    rw [stores.levels, at'.levels, pointers_append]
    rfl
  by_cases empty : position.before ++ position.after = []
  · have keys : (pointers (first.levels position.side)).map Sigma.fst <+ (first.levels position.side).map Sigma.fst := by
      rw [pointers, SortedMap.mapValues_keys]
    have sorted := (valid.side position.side).sorted.of_keys (Pointer.better position.side) keys
    rw [← stores.levels, middle] at sorted
    have levels : (second.levels position.side).kerase position.node.order.price = pointers (next.levels position.side) := by
      rw [middle, sorted.kerase_middle, cancelled.own, Position.around, remaining, if_pos empty, append_nil, pointers_append]
    rw [if_pos empty, levels] at followed
    exact ⟨next, _, ran, followed, cancelled, related⟩
  · have levels : (unlinked second position).levels position.side = pointers (next.levels position.side) := by
      refine (levels_congr rfl rfl _).trans (middle.trans ?_)
      rw [cancelled.own, Position.around, remaining, if_neg empty, pointers_append, pointers_append, append_assoc]
      rfl
    rw [if_neg empty] at followed
    rw [← levels, iterator_setLevels_self] at related
    exact ⟨next, _, ran, followed, cancelled, related⟩

theorem requantify_simulates (stores : Stores first second) (level pointer : Address) (lowered : Pointer.PriceLevel → Pointer.PriceLevel)
    (change : Order → Order) (same : ∀ level, (lowered level).address = level.address ∧ (lowered level).orders = level.orders) :
    Stores ((first.modifyLevel level lowered).modifyOrder pointer change)
      { second with orders := Cells.modify second.orders pointer change } := by
  have whole : ∀ bids asks : Pointer.PriceLevelMap,
      Pointer.PriceLevelMap.modifyOrder (Pointer.PriceLevelMap.modify (bids ++ asks) level lowered) pointer change =
        Pointer.PriceLevelMap.modifyOrder (Pointer.PriceLevelMap.modify bids level lowered) pointer change ++
          Pointer.PriceLevelMap.modifyOrder (Pointer.PriceLevelMap.modify asks level lowered) pointer change := by
    intro bids asks
    simp only [Pointer.PriceLevelMap.modifyOrder, Pointer.PriceLevelMap.modify, map_append]
  have heap := (stores.heap.modify level same).modifyOrder pointer change
  rw [whole] at heap
  refine ⟨?_, heap, stores.index, stores.trades, stores.fresh, ?_, stores.lists⟩
  · intro side
    rw [modifyOrder_levels, modifyLevel_levels, pointers_modifyOrder, pointers_modify fun level => (same level).1]
    exact (levels_congr rfl rfl side).trans (stores.levels side)
  · rw [Cells.modify_keys]
    exact stores.orders

private theorem handleOrderCancel_simulates (valid : Valid first) (stores : Stores first second) (order : Order) :
    ∃ next after, first.handleOrderCancel order = some next ∧ second.handleOrderCancel order = some after ∧ Stores next after := by
  rw [Pointer.MatchingEngine.handleOrderCancel, Iterator.OrderMatchingEngine.handleOrderCancel, stores.index order.orderId]
  cases found : first.orderByIDMap.lookup order.orderId with
  | none => exact ⟨first, second, rfl, rfl, stores⟩
  | some block =>
    obtain ⟨position, at', id, rfl⟩ := locate valid found
    have read : second.orders.dlookup (renamed position.block).orderIter = some position.node.order := stores.order_at at'
    simp only [Option.map_some, at'.order? valid, read, Option.bind_eq_bind, Option.bind_some]
    split
    · obtain ⟨next, after, ran, followed, -, related⟩ := cancelOrder_simulates valid stores at'
      rw [← id]
      exact ⟨next, after, ran, followed, related⟩
    · exact ⟨first, second, rfl, rfl, stores⟩

private theorem handleOrderAmend_simulates (valid : Valid first) (stores : Stores first second) (order : Order) :
    ∃ next after, first.handleOrderAmend order = some next ∧ second.handleOrderAmend order = some after ∧ Stores next after := by
  rw [Pointer.MatchingEngine.handleOrderAmend, Iterator.OrderMatchingEngine.handleOrderAmend, stores.index order.orderId]
  cases found : first.orderByIDMap.lookup order.orderId with
  | none => exact ⟨first, second, rfl, rfl, stores⟩
  | some block =>
    obtain ⟨position, at', id, rfl⟩ := locate valid found
    have read : second.orders.dlookup (renamed position.block).orderIter = some position.node.order := stores.order_at at'
    simp only [Option.map_some, at'.order? valid, at'.level? valid, read, Option.bind_eq_bind, Option.bind_some]
    split
    · exact ⟨first, second, rfl, rfl, stores⟩
    · split
      · obtain ⟨next, after, ran, followed, cancelled, related⟩ := cancelOrder_simulates valid stores at'
        obtain ⟨final, reached, ends⟩ := handleOrderNew_simulates (cancelled.valid valid at') related order
        rw [← id, ran, followed]
        exact ⟨_, final, rfl, reached, ends⟩
      · exact ⟨_, _, rfl, rfl, requantify_simulates stores _ _ _ _ fun _ => ⟨rfl, rfl⟩⟩

private theorem processOrder_simulates (valid : Valid first) (stores : Stores first second) (order : Order) :
    ∃ next after, first.processOrder order = some next ∧ second.processOrder order = some after ∧ Stores next after := by
  rw [Pointer.MatchingEngine.processOrder, Iterator.OrderMatchingEngine.processOrder]
  cases order.action with
  | new =>
    obtain ⟨after, ran, related⟩ := handleOrderNew_simulates valid stores order
    exact ⟨_, after, rfl, ran, related⟩
  | cancel => exact handleOrderCancel_simulates valid stores order
  | amend => exact handleOrderAmend_simulates valid stores order
  | recovery | recoveryEnd => exact ⟨first, second, rfl, rfl, stores⟩

theorem firstOrder_eq {levels others : Pointer.PriceLevelMap} (heap : Heap second.orders second.lists (levels ++ others)) :
    second.firstOrder (pointers levels) =
      levels.head?.bind fun entry => entry.2.orders.head?.map Pointer.Node.order := by
  cases levels with
  | nil => rfl
  | cons entry rest =>
    have list := heap.list entry mem_cons_self
    rw [Iterator.OrderMatchingEngine.firstOrder, pointers, SortedMap.mapValues, map_cons, head?_cons, head?_cons]
    simp only [Option.bind_eq_bind, Option.bind_some, list]
    cases held : entry.2.orders with
    | nil => rfl
    | cons node more =>
      have inside : node ∈ entry.2.orders := held ▸ mem_cons_self
      exact heap.order node (mem_append_left _ inside)

end Stores

/-- What the engines show: the trades, the best orders and the counts. -/
structure Indistinguishable (first : Ex.OrderMatchingEngine) (second : Iterator.OrderMatchingEngine) : Prop where
  trades : first.trades = second.trades
  bestBuyOrder : first.getBestBuyOrder = second.getBestBuyOrder
  bestSellOrder : first.getBestSellOrder = second.getBestSellOrder
  ordersCount : first.getOrdersCount = second.getOrdersCount
  buyPriceLevelCount : first.getBuyPriceLevelCount = second.getBuyPriceLevelCount
  sellPriceLevelsCount : first.getSellPriceLevelsCount = second.getSellPriceLevelsCount

private theorem Stores.indistinguishable {first : Ex.OrderMatchingEngine} {second : Iterator.OrderMatchingEngine}
    (stores : Stores first second) : Indistinguishable first second := by
  have bids : second.bidPriceLevelMap = pointers first.bidPriceLevelMap := stores.levels .buy
  have asks : second.askPriceLevelMap = pointers first.askPriceLevelMap := stores.levels .sell
  refine ⟨stores.trades.symm, ?_, ?_, stores.index.card.symm, ?_, ?_⟩
  · rw [Iterator.OrderMatchingEngine.getBestBuyOrder, bids, firstOrder_eq stores.heap]
    rfl
  · have heap : Heap second.orders second.lists (first.askPriceLevelMap ++ first.bidPriceLevelMap) := stores.heap_sides .sell
    rw [Iterator.OrderMatchingEngine.getBestSellOrder, asks, firstOrder_eq heap]
    rfl
  · rw [Pointer.MatchingEngine.getBuyPriceLevelCount, Iterator.OrderMatchingEngine.getBuyPriceLevelCount, bids, pointers,
      SortedMap.mapValues, length_map]
  · rw [Pointer.MatchingEngine.getSellPriceLevelsCount, Iterator.OrderMatchingEngine.getSellPriceLevelsCount, asks, pointers,
      SortedMap.mapValues, length_map]

theorem initial_stores : Stores {} {} := by
  refine ⟨fun side => ?_, ⟨by simp, by simp⟩, fun id => ?_, rfl, rfl, by simp, by simp⟩
  · cases side <;> rfl
  · rw [Finmap.lookup_empty, Finmap.lookup_empty]
    rfl

/-- No sequence of orders tells the iterator engine from the pointer engine. -/
theorem engines_indistinguishable (orders : List Order) :
    ∃ (first : Ex.OrderMatchingEngine) (second : Iterator.OrderMatchingEngine),
      Pointer.MatchingEngine.processOrders {} orders = some first ∧
      Iterator.OrderMatchingEngine.processOrders {} orders = some second ∧ Indistinguishable first second := by
  have together : ∀ (first : Pointer.MatchingEngine) (second : Iterator.OrderMatchingEngine) (order : Order),
      Valid first ∧ Stores first second → ∃ next after, first.processOrder order = some next ∧
        second.processOrder order = some after ∧ Valid next ∧ Stores next after := by
    rintro first second order ⟨valid, stores⟩
    obtain ⟨next, after, ran, followed, related⟩ := processOrder_simulates valid stores order
    obtain ⟨same, reached, well⟩ := processOrder_valid valid order
    rw [ran] at reached
    exact ⟨next, after, ran, followed, Option.some.inj reached ▸ well, related⟩
  obtain ⟨first, second, ran, followed, -, stores⟩ := Runs.foldlM_simulates together orders ⟨initial, initial_stores⟩
  exact ⟨first, second, ran, followed, stores.indistinguishable⟩

end FinanceTech.Proofs.EngineEquivalence
