import FinanceTech.Library.Runs
import FinanceTech.Proofs.ListedLinks

/-! A book of lists never follows an iterator to nothing, and its walk over
the levels fills their orders one after the other. -/

namespace FinanceTech.Proofs.ListedRepresentation
open List Library Matching Matching.Listed Matching.Simple.MatchState PriceTime PriceTimeFill ListedLinks
open Simple (PriceOrder PriceOrderList PriceLevelMap before)
open Simple.OrderMatchingEngine (priceLevelOrderList)

/-- What a loop over some nodes has done while other nodes were linked too. -/
structure Walk (fresh : Address) (others : List Placed) (state : Simple.MatchState ReferencesBlock) (places : List Placed)
    (next : Simple.MatchState ReferencesBlock) (kept : List Placed) : Prop where
  linked : Linked next.orders next.orderByIDMap fresh (kept ++ others)
  taker : ∃ quantity, next.order = { state.order with quantity }
  frame : ∀ place ∈ others, next.orders.dlookup place.node.orderIter = state.orders.dlookup place.node.orderIter
  filled : Live (places.map (Placed.read state.orders)) →
    (∀ order ∈ places.map (Placed.read state.orders), crossing state.order.side state.order.price order = true) →
    ∃ recorded, next.trades = state.trades ++ recorded ∧
      Filled state.order (places.map (Placed.read state.orders)) next.order.quantity recorded

namespace Walk

variable {fresh : Address} {others places first second kept rest : List Placed} {state middle next : Simple.MatchState ReferencesBlock}

theorem stop (linked : Linked state.orders state.orderByIDMap fresh (places ++ others))
    (stops : state.order.quantity = 0 ∨ places = []) : Walk fresh others state places state places where
  linked := linked
  taker := ⟨state.order.quantity, rfl⟩
  frame _ _ := rfl
  filled live _ := by
    refine ⟨[], (append_nil _).symm, Filled.stop live ?_⟩
    rcases stops with empty | none
    · exact .inl empty
    · exact .inr (by simp [none])

theorem trans (one : Walk fresh (second ++ others) state first middle kept)
    (two : Walk fresh (kept ++ others) middle second next rest) : Walk fresh others state (first ++ second) next (kept ++ rest) where
  linked := by
    apply two.linked.perm
    rw [← append_assoc]
    exact perm_append_comm.append_right others
  taker := by
    obtain ⟨left, same⟩ := one.taker
    obtain ⟨final, after⟩ := two.taker
    exact ⟨final, by rw [after, same]⟩
  frame place member :=
    (two.frame place (mem_append_right _ member)).trans (one.frame place (mem_append_right _ member))
  filled := by
    intro live reaches
    rw [map_append] at live reaches
    have reads : second.map (Placed.read middle.orders) = second.map (Placed.read state.orders) := by
      apply map_congr_left
      intro place member
      rw [Placed.read, Placed.read, one.frame place (mem_append_left _ member)]
    obtain ⟨left, same⟩ := one.taker
    have taker : middle.order = { state.order with quantity := middle.order.quantity } := by rw [same]
    obtain ⟨recorded, traded, filled⟩ := one.filled (fun order member => live order (mem_append_left _ member))
      fun order member => reaches order (mem_append_left _ member)
    obtain ⟨more, later, after⟩ := two.filled
      (by rw [reads]; exact fun order member => live order (mem_append_right _ member))
      (by rw [reads, taker]; exact fun order member => reaches order (mem_append_right _ member))
    rw [reads, taker] at after
    refine ⟨recorded ++ more, ?_, ?_⟩
    · rw [later, traded, append_assoc]
    · rw [map_append]
      exact filled.trans after

end Walk

private theorem matchOrderList_walk {fresh : Address} {side : OrderSide} {price : Price} {others : List Placed} {state : Simple.MatchState ReferencesBlock}
    {nodes : PriceOrderList}
    (linked : Linked state.orders state.orderByIDMap fresh (nodes.map (Placed.mk side price) ++ others)) :
    ∃ next kept, matchOrderList state nodes = some (next, kept) ∧
      Walk fresh others state (nodes.map (Placed.mk side price)) next (kept.map (Placed.mk side price)) := by
  induction nodes generalizing state with
  | nil => exact ⟨state, [], rfl, Walk.stop linked (.inr rfl)⟩
  | cons node rest ih =>
    let place : Placed := ⟨side, price, node⟩
    obtain ⟨order, holds⟩ := linked.held place mem_cons_self
    have frame : ∀ change : Order → Order, ∀ other ∈ rest.map (Placed.mk side price) ++ others,
        (Cells.modify state.orders node.orderIter change).dlookup other.node.orderIter =
          state.orders.dlookup other.node.orderIter :=
      fun change other member => Cells.dlookup_modify_ne (linked.apart holds member).1 _ _
    have alone : [place].map (Placed.read state.orders) = [order] := by rw [map_singleton, holds.read_eq]
    have found : state.orders.dlookup node.orderIter = some order := holds.found
    rw [matchOrderList, found]
    simp only [Option.bind_eq_bind, Option.bind_some]
    split
    next fits =>
      let spent : Order → Order := fun order => { order with quantity := 0 }
      let filled : Simple.MatchState ReferencesBlock := { state.addTrade order with
        order.quantity := state.order.quantity - order.quantity
        orders := Cells.modify state.orders node.orderIter spent
        orderByIDMap := state.orderByIDMap.erase order.orderId }
      have one : Walk fresh (rest.map (Placed.mk side price) ++ others) state [place] filled [] := by
        refine ⟨?_, ⟨_, rfl⟩, frame spent, ?_⟩
        · refine linked.release holds (fun handle different => Cells.dlookup_modify_ne different _ _) ?_
          rw [Cells.modify_keys]
        · intro live reaches
          rw [alone] at live reaches ⊢
          exact ⟨[Trade.between state.order order], rfl, Filled.whole (live order mem_cons_self).2
            (reaches order mem_cons_self) fits⟩
      obtain ⟨next, kept, ran, walk⟩ := ih one.linked
      exact ⟨next, kept, ran, one.trans walk⟩
    next larger =>
      let lowered : Order → Order := fun matched => { matched with quantity := matched.quantity - state.order.quantity }
      let used : Simple.MatchState ReferencesBlock := { state.addTrade order with
        order.quantity := 0, orders := Cells.modify state.orders node.orderIter lowered }
      have kept : Linked used.orders used.orderByIDMap fresh (place :: (rest.map (Placed.mk side price) ++ others)) :=
        @Linked.modify _ _ _ _ linked node.orderIter lowered fun _ => ⟨rfl, rfl, rfl⟩
      have one : Walk fresh (rest.map (Placed.mk side price) ++ others) state [place] used [place] := by
        refine ⟨kept, ⟨_, rfl⟩, frame lowered, ?_⟩
        intro live reaches
        rw [alone] at live reaches ⊢
        exact ⟨[Trade.between state.order order], rfl, Filled.part (live order mem_cons_self).2
          (reaches order mem_cons_self) larger⟩
      exact ⟨used, node :: rest, rfl, one.trans (Walk.stop (kept.perm perm_middle.symm) (.inl rfl))⟩

private theorem matchLevels_walk {fresh : Address} {side : OrderSide} {others : List Placed} {state : Simple.MatchState ReferencesBlock} {levels : PriceLevelMap}
    (linked : Linked state.orders state.orderByIDMap fresh (placed side levels ++ others)) :
    ∃ next kept, matchLevels state levels = some (next, kept) ∧ kept.map Sigma.fst = levels.map Sigma.fst ∧
      Walk fresh others state (placed side levels) next (placed side kept) := by
  induction levels generalizing state others with
  | nil => exact ⟨state, [], rfl, rfl, Walk.stop linked (.inr rfl)⟩
  | cons entry rest ih =>
    obtain ⟨price, list⟩ := entry
    rw [matchLevels]
    split
    next runs =>
      rw [placed_cons, append_assoc] at linked
      obtain ⟨middle, left, ran, one⟩ := matchOrderList_walk linked
      have later := one.linked.perm (perm_append_comm_assoc _ _ _)
      obtain ⟨next, kept, walked, keys, two⟩ := ih later
      refine ⟨next, ⟨price, left⟩ :: kept, ?_, ?_, one.trans two⟩
      · simp only [ran, walked, Option.bind_eq_bind, Option.bind_some, Option.pure_def]
      · rw [map_cons, map_cons, keys]
    next stops =>
      refine ⟨state, _, rfl, rfl, Walk.stop linked (.inl ?_)⟩
      simpa [UInt64.pos_iff_ne_zero] using stops

structure Valid (engine : OrderMatchingEngine) : Prop where
  sorted : ∀ side, SortedMap.Sorted (before side) (engine.levels side)
  linked : Linked engine.orders engine.orderByIDMap engine.fresh
    (placed .buy engine.buyOrders ++ placed .sell engine.sellOrders)

theorem initial : Valid {} := by
  refine ⟨?_, ?_, ?_, nodup_nil, ?_, nodupKeys_nil, ?_⟩
  · intro side
    cases side <;> exact .nil
  · intro place member
    cases member
  · intro id block found
    rw [Finmap.lookup_empty] at found
    cases found
  · intro place member
    cases member
  · intro handle member
    cases member

theorem sides_perm (engine : OrderMatchingEngine) (side : OrderSide) :
    placed .buy engine.buyOrders ++ placed .sell engine.sellOrders ~
      placed side (engine.levels side) ++ placed side.opposite (engine.levels side.opposite) := by
  cases side with
  | buy => exact Perm.refl _
  | sell => exact perm_append_comm

theorem Valid.links {engine : OrderMatchingEngine} (valid : Valid engine) (side : OrderSide) :
    Linked engine.orders engine.orderByIDMap engine.fresh
      (placed side (engine.levels side) ++ placed side.opposite (engine.levels side.opposite)) :=
  valid.linked.perm (sides_perm engine side)

theorem Valid.of_sides {engine : OrderMatchingEngine} (side : OrderSide)
    (own : SortedMap.Sorted (before side) (engine.levels side))
    (other : SortedMap.Sorted (before side.opposite) (engine.levels side.opposite))
    (linked : Linked engine.orders engine.orderByIDMap engine.fresh
      (placed side (engine.levels side) ++ placed side.opposite (engine.levels side.opposite))) : Valid engine := by
  refine ⟨?_, linked.perm (sides_perm engine side).symm⟩
  intro which
  cases side <;> cases which <;> assumption

theorem setLevels_levels (engine : OrderMatchingEngine) (levels : PriceLevelMap) (side which : OrderSide) :
    (engine.setLevels levels side).levels which = if which = side then levels else engine.levels which := by
  cases side <;> cases which <;> rfl

theorem setLevels_fresh (engine : OrderMatchingEngine) (levels : PriceLevelMap) (side : OrderSide) :
    (engine.setLevels levels side).fresh = engine.fresh := by cases side <;> rfl

theorem opposite_ne (side : OrderSide) : side.opposite ≠ side := by cases side <;> decide

/-- An engine whose levels of one side were replaced. -/
theorem Valid.replace {engine next : OrderMatchingEngine} (valid : Valid engine) (side : OrderSide) {levels : PriceLevelMap}
    (replaced : ∀ which, next.levels which = if which = side then levels else engine.levels which)
    (sorted : SortedMap.Sorted (before side) levels)
    (linked : Linked next.orders next.orderByIDMap next.fresh
      (placed side levels ++ placed side.opposite (engine.levels side.opposite))) : Valid next := by
  have own : next.levels side = levels := (replaced side).trans (if_pos rfl)
  have other : next.levels side.opposite = engine.levels side.opposite :=
    (replaced side.opposite).trans (if_neg (opposite_ne side))
  refine Valid.of_sides side (own ▸ sorted) (other ▸ valid.sorted side.opposite) ?_
  rw [own, other]
  exact linked

/-- The level a node is placed on. -/
private theorem mem_sides {engine : OrderMatchingEngine} {place : Placed}
    (member : place ∈ placed .buy engine.buyOrders ++ placed .sell engine.sellOrders) :
    ∃ level ∈ engine.levels place.side, place.price = level.1 ∧ place.node ∈ level.2 := by
  rcases mem_append.mp member with inside | inside
  all_goals
    obtain ⟨level, present, listed⟩ := mem_flatMap.mp inside
    obtain ⟨node, linked, rfl⟩ := mem_map.mp listed
    exact ⟨level, present, rfl, linked⟩

private theorem mem_placed {engine : OrderMatchingEngine} {side : OrderSide} {level : (_ : Price) × PriceOrderList} {node : PriceOrder}
    (present : level ∈ engine.levels side) (linked : node ∈ level.2) :
    (⟨side, level.1, node⟩ : Placed) ∈ placed .buy engine.buyOrders ++ placed .sell engine.sellOrders := by
  have listed : (⟨side, level.1, node⟩ : Placed) ∈ placed side (engine.levels side) :=
    mem_flatMap.mpr ⟨level, present, mem_map_of_mem linked⟩
  cases side with
  | buy => exact mem_append_left _ listed
  | sell => exact mem_append_right _ listed

private theorem level_distinct {engine : OrderMatchingEngine} (valid : Valid engine) {side : OrderSide}
    {level : (_ : Price) × PriceOrderList} (member : level ∈ engine.levels side) : (level.2.map PriceOrder.iter).Nodup := by
  have distinct := (valid.links side).distinct
  rw [map_append, placed, map_flatMap] at distinct
  have alone := (nodup_flatMap.mp (nodup_append.mp distinct).1).1 level member
  rw [map_map] at alone
  exact alone

/-- Where an indexed order is: on its own level, and its node on no other. -/
structure Located (engine : OrderMatchingEngine) (id : OrderID) (block : ReferencesBlock) (side : OrderSide)
    (level : (_ : Price) × PriceOrderList) (order : Order) : Prop where
  present : level ∈ engine.levels side
  linked : ⟨block.priceOrderIter, block.orderIter⟩ ∈ level.2
  distinct : (level.2.map PriceOrder.iter).Nodup
  found : engine.orders.dlookup block.orderIter = some order
  named : order.orderId = id
  sided : order.side = side
  priced : order.price = level.1
  only : ∀ other entry, entry ∈ engine.levels other → ∀ node ∈ entry.2, node.iter = block.priceOrderIter →
    other = side ∧ entry.1 = level.1

theorem Valid.located {engine : OrderMatchingEngine} (valid : Valid engine) {id : OrderID} {block : ReferencesBlock}
    (held : engine.orderByIDMap.lookup id = some block) : ∃ side level order, Located engine id block side level order := by
  obtain ⟨⟨side, price, iter, orderIter⟩, member, leads, order, holds, named⟩ := valid.linked.indexed id block held
  cases leads
  obtain ⟨level, present, priced, linked⟩ := mem_sides member
  refine ⟨side, level, order, present, linked, level_distinct valid present, holds.found, named, holds.side,
    holds.price.trans priced, fun other entry there node inside names => ?_⟩
  have equal := inj_on_of_nodup_map valid.linked.distinct (mem_placed there inside) member names
  exact ⟨congrArg Placed.side equal, (congrArg Placed.price equal).trans priced⟩

theorem eraseP_eq_filter {list : PriceOrderList} (distinct : (list.map PriceOrder.iter).Nodup) (iter : Address) :
    (list.eraseP fun node => node.iter = iter) = list.filter fun node => node.iter ≠ iter := by
  induction list with
  | nil => rfl
  | cons node rest ih =>
    obtain ⟨alone, distinct⟩ := nodup_cons.mp distinct
    by_cases named : node.iter = iter
    · have others : rest.filter (fun node => node.iter ≠ iter) = rest := by
        apply filter_eq_self.mpr
        intro other member
        exact decide_eq_true fun same => alone (named.trans same.symm ▸ mem_map_of_mem member)
      rw [filter_cons_of_neg (by simp [named]), others]
      exact eraseP_cons_of_pos (decide_eq_true named)
    · rw [filter_cons_of_pos (by simp [named]), ← ih distinct]
      exact eraseP_cons_of_neg (by simp [named])

/-- The part of the opposite side that the walk covers. -/
def walked (engine : OrderMatchingEngine) (order : Order) : PriceLevelMap :=
  SortedMap.lowerBound (before order.side.opposite) order.price (engine.levels order.side.opposite)

/-- The orders of some levels, in the order of the map. -/
def resting (orders : Orders) (side : OrderSide) (levels : PriceLevelMap) : List Order :=
  (placed side levels).map (Placed.read orders)

theorem placed_held {engine : OrderMatchingEngine} (valid : Valid engine) {side : OrderSide} {place : Placed}
    (member : place ∈ placed side (engine.levels side)) :
    ∃ order, Holds engine.orders engine.orderByIDMap place order := (valid.links side).held place (mem_append_left _ member)

/-- Every order is priced by the level it rests on. -/
theorem resting_price {engine : OrderMatchingEngine} (valid : Valid engine) {side : OrderSide} {levels : PriceLevelMap}
    (sub : levels ⊆ engine.levels side) {order : Order} (member : order ∈ resting engine.orders side levels) :
    ∃ entry ∈ levels, order.price = entry.1 := by
  obtain ⟨place, inside, rfl⟩ := mem_map.mp member
  obtain ⟨entry, present, listed⟩ := mem_flatMap.mp inside
  obtain ⟨node, linked, rfl⟩ := mem_map.mp listed
  obtain ⟨order, holds⟩ := placed_held valid (mem_flatMap.mpr ⟨entry, sub present, listed⟩)
  exact ⟨entry, present, by rw [holds.read_eq, holds.price]⟩

theorem crossing_iff (side : OrderSide) (price : Price) (order : Order) :
    crossing side price order = true ↔ ¬ before side.opposite order.price price := by
  cases side <;> simp [crossing, before, OrderSide.opposite]

theorem walked_sub (engine : OrderMatchingEngine) (order : Order) : walked engine order <:+ engine.levels order.side.opposite :=
  dropWhile_suffix _

/-- The walk starts at the first crossing level, so it meets only those. -/
theorem walked_crosses {engine : OrderMatchingEngine} (valid : Valid engine) (order : Order) :
    ∀ other ∈ resting engine.orders order.side.opposite (walked engine order), crossing order.side order.price other = true := by
  intro other member
  obtain ⟨entry, present, price⟩ := resting_price valid (walked_sub engine order).subset member
  rw [crossing_iff, price]
  exact (valid.sorted order.side.opposite).not_before_of_mem_lowerBound _ present

/-- What matching an incoming order has done. -/
structure Matched (engine : OrderMatchingEngine) (order : Order) (taker : Order) (next : OrderMatchingEngine) : Prop where
  ran : engine.matchOrder order = some (taker, next)
  valid : Valid next
  same : ∃ quantity, taker = { order with quantity }
  filled : Live (resting engine.orders order.side.opposite (walked engine order)) → ∃ recorded, next.trades = engine.trades ++ recorded ∧
    Filled order (resting engine.orders order.side.opposite (walked engine order)) taker.quantity recorded

theorem matchOrder_matches {engine : OrderMatchingEngine} (valid : Valid engine) (order : Order) :
    ∃ taker next, Matched engine order taker next := by
  let side := order.side.opposite
  let passed := (engine.levels side).takeWhile fun entry => before side entry.1 order.price
  have whole : passed ++ walked engine order = engine.levels side := takeWhile_append_dropWhile
  have linked := valid.links side
  rw [← whole, placed_append, append_assoc] at linked
  have start := linked.perm (perm_append_comm_assoc _ _ _)
  obtain ⟨state, kept, ran, keys, walk⟩ := @matchLevels_walk engine.fresh side _
    ⟨order, engine.orders, engine.orderByIDMap, engine.trades⟩ (walked engine order) start
  have matched : (passed ++ kept).map Sigma.fst = (engine.levels side).map Sigma.fst := by
    rw [← whole, map_append, map_append, keys]
  let next : OrderMatchingEngine := { engine.setLevels (passed ++ kept) side with
    orders := state.orders, orderByIDMap := state.orderByIDMap, trades := state.trades }
  refine ⟨state.order, next, ?_, ?_, walk.taker, fun live => ?_⟩
  · rw [OrderMatchingEngine.matchOrder]
    simp only [walked] at ran
    simp only [ran, Option.bind_eq_bind, Option.bind_some, Option.pure_def]
    rfl
  · have levels : ∀ which, next.levels which = if which = side then passed ++ kept else engine.levels which := by
      intro which
      rw [← setLevels_levels]
      cases which <;> rfl
    have fresh : next.fresh = engine.fresh := setLevels_fresh _ _ _
    refine valid.replace side levels ((valid.sorted side).of_keys _ (matched ▸ Sublist.refl _)) ?_
    rw [placed_append, append_assoc, fresh]
    exact walk.linked.perm (perm_append_comm_assoc _ _ _)
  · exact walk.filled live (walked_crosses valid order)

/-- `operator[]` and the insertion behind it add one node to the level. -/
private theorem insert_placed {side : OrderSide} {levels : PriceLevelMap} (sorted : SortedMap.Sorted (before side) levels)
    (price : Price) (node : PriceOrder) :
    placed side (SortedMap.insert (before side) price
        (priceLevelOrderList levels price ++ [node]) levels) ~ ⟨side, price, node⟩ :: placed side levels := by
  rw [priceLevelOrderList]
  cases found : levels.dlookup price with
  | none =>
    refine ((SortedMap.insert_perm _ _ (dlookup_eq_none.mp found)).flatMap_right _).trans ?_
    exact Perm.refl _
  | some list =>
    obtain ⟨front, back, whole, replaced⟩ := sorted.insert_replace _ found (list ++ [node])
    rw [Option.getD_some, replaced]
    conv_rhs => rw [whole]
    simp only [placed_append, placed_cons, map_append, map_singleton, append_assoc, singleton_append]
    rw [← append_assoc, ← append_assoc (placed side front)]
    exact perm_middle

theorem handleOrderNew_matches {engine : OrderMatchingEngine} (valid : Valid engine) (order : Order) :
    ∃ taker middle next, Matched engine order taker middle ∧ engine.handleOrderNew order = some next ∧
      Valid next ∧ next.trades = middle.trades := by
  obtain ⟨taker, middle, matched⟩ := matchOrder_matches valid order
  rw [OrderMatchingEngine.handleOrderNew, matched.ran]
  simp only [Option.bind_eq_bind, Option.bind_some, Option.pure_def]
  split
  next => exact ⟨taker, middle, middle, matched, rfl, matched.valid, rfl⟩
  next =>
    split
    next => exact ⟨taker, middle, middle, matched, rfl, matched.valid, rfl⟩
    next absent =>
      let list := priceLevelOrderList (middle.levels taker.side) taker.price ++
        [⟨middle.fresh + 1, middle.fresh⟩]
      let inserted := SortedMap.insert (before taker.side) taker.price list (middle.levels taker.side)
      let next : OrderMatchingEngine := { middle.setLevels inserted taker.side with
        orders := middle.orders ++ [⟨middle.fresh, taker⟩]
        orderByIDMap := middle.orderByIDMap.insert taker.orderId ⟨middle.fresh, middle.fresh + 1⟩
        fresh := middle.fresh + 2 }
      have levels : ∀ which, next.levels which = if which = taker.side then inserted else middle.levels which := by
        intro which
        rw [← setLevels_levels]
        cases which <;> rfl
      have sorted := matched.valid.sorted taker.side
      refine ⟨taker, middle, next, matched, rfl, matched.valid.replace taker.side levels (sorted.insert _ _ _) ?_, ?_⟩
      · apply ((matched.valid.links taker.side).allocate absent).perm
        exact ((insert_placed (matched.valid.sorted taker.side) taker.price _).symm).append_right _
      · cases side : taker.side <;> simp only [next, side, OrderMatchingEngine.setLevels]

private theorem unlink_placed (side : OrderSide) (iter : Address) (levels : PriceLevelMap) :
    placed side (unlink iter levels) = (placed side levels).filter fun place => place.node.iter ≠ iter := by
  induction levels with
  | nil => rfl
  | cons entry rest ih =>
    rw [placed_cons, filter_append, ← ih, filter_map]
    rfl

private theorem unlink_sorted {side : OrderSide} (iter : Address) {levels : PriceLevelMap}
    (sorted : SortedMap.Sorted (before side) levels) : SortedMap.Sorted (before side) (unlink iter levels) := by
  apply sorted.of_keys
  rw [unlink, map_map]
  exact Sublist.refl _

theorem handleOrderCancel_valid {engine : OrderMatchingEngine} (valid : Valid engine) (order : Order) :
    Valid (engine.handleOrderCancel order) := by
  rw [OrderMatchingEngine.handleOrderCancel]
  cases found : engine.orderByIDMap.lookup order.orderId with
  | none => exact valid
  | some block =>
    obtain ⟨place, member, leads, resting, holds, named⟩ := valid.linked.indexed _ _ found
    cases leads
    obtain ⟨front, back, whole⟩ := append_of_mem member
    have perm : placed .buy engine.buyOrders ++ placed .sell engine.sellOrders ~ place :: (front ++ back) := by
      rw [whole]
      exact perm_middle
    have linked := valid.linked.perm perm
    have released := @Linked.release _ _ _ _ _ _ linked holds (engine.orders.kerase place.node.orderIter)
      (fun handle different => dlookup_kerase_ne different) ((kerase_sublist _ _).map Sigma.fst)
    have apart : (front ++ back).filter (fun other => other.node.iter ≠ place.node.iter) = front ++ back := by
      apply filter_eq_self.mpr
      intro other inside
      have different : other.node.iter ≠ place.node.iter := by
        intro same
        exact (nodup_cons.mp linked.distinct).1 (mem_map.mpr ⟨other, inside, same⟩)
      exact decide_eq_true different
    refine ⟨?_, ?_⟩
    · intro side
      have sorted := valid.sorted side
      cases side <;> exact unlink_sorted _ sorted
    · rw [← named]
      apply released.perm
      simp only [unlink_placed, ← filter_append]
      refine Perm.trans ?_ (perm.filter _).symm
      rw [filter_cons_of_neg (by simp [Placed.block]), Placed.block, apart]

private theorem handleOrderAmend_valid {engine : OrderMatchingEngine} (valid : Valid engine) (order : Order) :
    ∃ next, engine.handleOrderAmend order = some next ∧ Valid next := by
  rw [OrderMatchingEngine.handleOrderAmend]
  cases found : engine.orderByIDMap.lookup order.orderId with
  | none => exact ⟨engine, rfl, valid⟩
  | some block =>
    obtain ⟨place, member, leads, resting, holds, -⟩ := valid.linked.indexed _ _ found
    cases leads
    have read : engine.orders.dlookup place.block.orderIter = some resting := holds.found
    simp only [read, Option.bind_eq_bind, Option.bind_some]
    split
    next => exact ⟨engine, rfl, valid⟩
    next =>
      split
      next =>
        obtain ⟨-, -, next, -, ran, after, -⟩ := handleOrderNew_matches (handleOrderCancel_valid valid order) order
        exact ⟨next, ran, after⟩
      next =>
        refine ⟨_, rfl, valid.sorted, ?_⟩
        exact @Linked.modify _ _ _ _ valid.linked _ (fun original => { original with quantity := order.quantity })
          fun _ => ⟨rfl, rfl, rfl⟩

theorem processOrder_valid {engine : OrderMatchingEngine} (valid : Valid engine) (order : Order) :
    ∃ next, engine.processOrder order = some next ∧ Valid next := by
  rw [OrderMatchingEngine.processOrder]
  cases order.action with
  | new =>
    obtain ⟨-, -, next, -, ran, after, -⟩ := handleOrderNew_matches valid order
    exact ⟨next, ran, after⟩
  | cancel => exact ⟨_, rfl, handleOrderCancel_valid valid order⟩
  | amend => exact handleOrderAmend_valid valid order
  | recovery | recoveryEnd => exact ⟨engine, rfl, valid⟩

theorem processOrders_valid (orders : List Order) :
    ∃ engine, OrderMatchingEngine.processOrders {} orders = some engine ∧ Valid engine :=
  Runs.foldlM_succeeds (fun _ order valid => processOrder_valid valid order) orders initial

theorem reached_valid {orders : List Order} {engine : OrderMatchingEngine}
    (reached : OrderMatchingEngine.processOrders {} orders = some engine) : Valid engine := by
  obtain ⟨final, same, valid⟩ := processOrders_valid orders
  rw [reached] at same
  exact Option.some.inj same ▸ valid

end FinanceTech.Proofs.ListedRepresentation
