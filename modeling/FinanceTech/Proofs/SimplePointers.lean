import FinanceTech.Library.FiniteMap
import FinanceTech.Proofs.ListedRepresentation

/-! The iterator engine whose levels are elements of a `flat_map`. It does what a book
of lists does until an order is taken out whose pointer to its level no longer is the
place of the level, and there it fails. -/

namespace FinanceTech.Proofs.SimplePointers
open List Library Matching Matching.Simple PriceTime PriceTimeFill ListedLinks ListedRepresentation
open Library.FiniteMap (Mapped)

def plain (block : ReferencesBlock) : Listed.ReferencesBlock := ⟨block.orderIter, block.priceOrderIter⟩

/-- The loops of the two engines before the same order. -/
structure Beside (first : MatchState ReferencesBlock) (second : MatchState Listed.ReferencesBlock) : Prop where
  order : first.order = second.order
  orders : first.orders = second.orders
  trades : first.trades = second.trades
  index : Mapped plain first.orderByIDMap second.orderByIDMap

/-- The engine holds what the book of lists holds. -/
structure Follows (first : OrderMatchingEngine) (second : Listed.OrderMatchingEngine) : Prop where
  levels : ∀ side, first.levels side = second.levels side
  orders : first.orders = second.orders
  trades : first.trades = second.trades
  fresh : first.fresh = second.fresh
  index : Mapped plain first.orderByIDMap second.orderByIDMap

/-- The order takes a resting one out, to another price if it is not a cancellation. -/
def Withdraws (order resting : Order) : Prop :=
  order.action = .cancel ∨ order.action = .amend ∧ resting.side = order.side ∧ resting.price ≠ order.price

/-- The order takes one out whose pointer is not the place of its level. -/
def Dangles (engine : OrderMatchingEngine) (order : Order) : Prop :=
  ∃ block resting, engine.orderByIDMap.lookup order.orderId = some block ∧ engine.orders.dlookup block.orderIter = some resting ∧
    Withdraws order resting ∧ block.priceLevelOrderList ≠ engine.levelPtr resting.side resting.price

/-- How a vector of the library grows, by three fifths and one element at least. -/
def growth (capacity : Nat) : Nat := max (capacity * 8 / 5) (capacity + 1)

private theorem initial_follows : Follows {} {} := by
  refine ⟨fun side => ?_, rfl, rfl, rfl, fun _ => rfl⟩
  cases side <;> rfl

theorem matchOrderList_follows {first : MatchState ReferencesBlock} {second next : MatchState Listed.ReferencesBlock}
    {nodes kept : PriceOrderList} (beside : Beside first second) (ran : second.matchOrderList nodes = some (next, kept)) :
    ∃ after, first.matchOrderList nodes = some (after, kept) ∧ Beside after next := by
  induction nodes generalizing first second with
  | nil =>
    cases ran
    exact ⟨first, rfl, beside⟩
  | cons node rest ih =>
    obtain ⟨taker, owned, references, recorded⟩ := first
    obtain ⟨order, orders, index, trades⟩ := second
    obtain ⟨rfl, rfl, rfl, mapped⟩ := beside
    rw [MatchState.matchOrderList, Option.bind_eq_bind, Option.bind_eq_some_iff] at ran
    obtain ⟨matched, found, ran⟩ := ran
    dsimp only at mapped found ran
    rw [MatchState.matchOrderList, found]
    simp only [Option.bind_eq_bind, Option.bind_some]
    by_cases fits : matched.quantity ≤ taker.quantity
    · obtain ⟨after, followed, meets⟩ := @ih ⟨_, _, _, recorded ++ [Trade.between taker matched]⟩ _
        ⟨rfl, rfl, rfl, mapped.erase matched.orderId⟩ ((if_pos fits).symm.trans ran)
      exact ⟨after, (if_pos fits).trans followed, meets⟩
    · cases (if_neg fits).symm.trans ran
      exact ⟨_, if_neg fits, rfl, rfl, rfl, mapped⟩

theorem matchLevels_follows {first : MatchState ReferencesBlock} {second next : MatchState Listed.ReferencesBlock}
    {levels kept : PriceLevelMap} (beside : Beside first second) (ran : second.matchLevels levels = some (next, kept)) :
    ∃ after, first.matchLevels levels = some (after, kept) ∧ Beside after next := by
  induction levels generalizing first second kept with
  | nil =>
    cases ran
    exact ⟨first, rfl, beside⟩
  | cons level rest ih =>
    obtain ⟨price, list⟩ := level
    rw [MatchState.matchLevels] at ran
    rw [MatchState.matchLevels, beside.order]
    split at ran
    next runs =>
      obtain ⟨⟨middle, left⟩, walked, ran⟩ := Option.bind_eq_some_iff.mp ran
      obtain ⟨⟨final, others⟩, went, ran⟩ := Option.bind_eq_some_iff.mp ran
      cases ran
      obtain ⟨there, followed, meets⟩ := matchOrderList_follows beside walked
      obtain ⟨after, reached, ends⟩ := ih meets went
      refine ⟨after, ?_, ends⟩
      simp only [if_pos runs, followed, reached, Option.bind_eq_bind, Option.bind_some, Option.pure_def]
    next stops =>
      cases ran
      exact ⟨first, if_neg stops, beside⟩

section Follows

variable {first : OrderMatchingEngine} {second : Listed.OrderMatchingEngine} {grow : Nat → Nat}

theorem Follows.setLevels (follows : Follows first second) (levels : PriceLevelMap) (side which : OrderSide) :
    (first.setLevels levels side).levels which = (second.setLevels levels side).levels which := by
  have buy := follows.levels .buy
  have sell := follows.levels .sell
  cases side <;> cases which <;> first | rfl | assumption

private theorem matchOrder_follows (follows : Follows first second) {order taker : Order} {next : Listed.OrderMatchingEngine}
    (ran : second.matchOrder order = some (taker, next)) :
    ∃ after, first.matchOrder order = some (taker, after) ∧ Follows after next := by
  rw [Listed.OrderMatchingEngine.matchOrder, Option.bind_eq_bind, Option.bind_eq_some_iff] at ran
  obtain ⟨⟨state, matched⟩, walked, ran⟩ := ran
  cases ran
  obtain ⟨after, followed, meets⟩ := @matchLevels_follows ⟨order, first.orders, first.orderByIDMap, first.trades⟩ _ _ _ _
    ⟨rfl, follows.orders, follows.trades, follows.index⟩ walked
  rw [OrderMatchingEngine.matchOrder, follows.levels]
  simp only [followed, meets.order, Option.bind_eq_bind, Option.bind_some, Option.pure_def]
  refine ⟨_, rfl, fun side => ?_, meets.orders, meets.trades, ?_, meets.index⟩
  · have replaced := follows.setLevels ((second.levels order.side.opposite).takeWhile
      (fun entry => before order.side.opposite entry.1 order.price) ++ matched) order.side.opposite side
    cases side <;> exact replaced
  · have kept := follows.fresh
    cases order.side <;> exact kept

private theorem insertOrder_follows (follows : Follows first second) (order : Order) :
    Follows (first.insertOrder grow order) (second.insertOrder order) := by
  obtain ⟨levels, orders, trades, fresh, index⟩ := follows
  rw [OrderMatchingEngine.insertOrder, Listed.OrderMatchingEngine.insertOrder, levels, fresh]
  refine ⟨fun which => ?_, ?_, ?_, ?_, ?_⟩
  · have buy := levels .buy
    have sell := levels .sell
    cases order.side <;> cases which <;> first | rfl | assumption
  · cases order.side <;> exact congrArg (· ++ [_]) orders
  · cases order.side <;> exact trades
  · cases order.side <;> exact congrArg (· + 2) fresh
  · cases order.side <;> exact index.insert order.orderId _

theorem handleOrderNew_follows (follows : Follows first second) {order : Order} {next : Listed.OrderMatchingEngine}
    (ran : second.handleOrderNew order = some next) :
    ∃ after, first.handleOrderNew grow order = some after ∧ Follows after next := by
  rw [Listed.OrderMatchingEngine.handleOrderNew, Option.bind_eq_bind, Option.bind_eq_some_iff] at ran
  obtain ⟨⟨taker, middle⟩, matched, ran⟩ := ran
  obtain ⟨there, followed, meets⟩ := matchOrder_follows follows matched
  rw [OrderMatchingEngine.handleOrderNew, followed]
  simp only [Option.bind_eq_bind, Option.bind_some, ← meets.index.mem taker.orderId]
  dsimp only at ran
  split at ran
  next filled =>
    cases ran
    exact ⟨there, if_pos filled, meets⟩
  next left =>
    rw [if_neg left]
    split at ran
    next taken =>
      cases ran
      exact ⟨there, if_pos taken, meets⟩
    next free =>
      cases ran
      exact ⟨_, if_neg free, insertOrder_follows meets taker⟩

theorem modify_middle {α : Type} (front back : List α) (item : α) (change : α → α) :
    (front ++ item :: back).modify front.length change = front ++ change item :: back := by
  induction front with
  | nil => rfl
  | cons first front ih => rw [cons_append, length_cons, modify_succ_cons, ih, cons_append]

theorem unlink_absent {levels : PriceLevelMap} {iter : Address} (absent : ∀ entry ∈ levels, ∀ node ∈ entry.2, node.iter ≠ iter) :
    Listed.unlink iter levels = levels := by
  have kept : ∀ entry ∈ levels, (⟨entry.1, entry.2.filter fun node => node.iter ≠ iter⟩ : (_ : Price) × PriceOrderList) = entry := by
    intro entry member
    rw [filter_eq_self.mpr fun node inside => decide_eq_true (absent entry member node inside)]
  exact (map_congr_left kept).trans (map_id levels)

private theorem split_levelPtr {side : OrderSide} (sorted : SortedMap.Sorted (before side) (first.levels side))
    {level : (_ : Price) × PriceOrderList} (member : level ∈ first.levels side) :
    ∃ front back, first.levels side = front ++ level :: back ∧ (first.levelPtr side level.1).index = front.length := by
  obtain ⟨front, back, whole⟩ := append_of_mem member
  refine ⟨front, back, whole, ?_⟩
  rw [whole] at sorted
  rw [OrderMatchingEngine.levelPtr, whole, sorted.takeWhile_middle]

private theorem levelAt_iff {pointer : PriceOrderListPtr} (sorted : SortedMap.Sorted (before pointer.side) (first.levels pointer.side))
    {list : PriceOrderList} : first.levelAt pointer = some list ↔
      ∃ price, ⟨price, list⟩ ∈ first.levels pointer.side ∧ pointer = first.levelPtr pointer.side price := by
  rw [OrderMatchingEngine.levelAt]
  constructor
  · intro read
    obtain ⟨same, read⟩ := Option.ite_none_right_eq_some.mp read
    obtain ⟨⟨price, _⟩, held, rfl⟩ := Option.map_eq_some_iff.mp read
    refine ⟨price, mem_of_getElem? held, ?_⟩
    obtain ⟨inside, level⟩ := List.getElem?_eq_some_iff.mp held
    have whole := take_append_drop pointer.index (first.levels pointer.side)
    rw [drop_eq_getElem_cons inside, level] at whole
    have index : ((first.levels pointer.side).takeWhile fun entry => before pointer.side entry.1 price).length = pointer.index := by
      rw [← whole] at sorted ⊢
      rw [sorted.takeWhile_middle, length_take, Nat.min_eq_left (Nat.le_of_lt inside)]
    obtain ⟨side, buffer, place⟩ := pointer
    rw [OrderMatchingEngine.levelPtr, index, ← same]
  · rintro ⟨price, member, same⟩
    obtain ⟨front, back, whole, index⟩ := split_levelPtr sorted member
    rw [same]
    refine (if_pos rfl).trans ?_
    rw [index]
    change ((first.levels pointer.side)[front.length]?).map Sigma.snd = some list
    rw [whole, getElem?_append_right (Nat.le_refl _), Nat.sub_self]
    rfl

theorem Follows.indexed (follows : Follows first second) {id : OrderID} {block : ReferencesBlock}
    (held : first.orderByIDMap.lookup id = some block) : second.orderByIDMap.lookup id = some (plain block) := by
  rw [follows.index, held]
  rfl

private theorem resting_of (valid : Valid second) (follows : Follows first second) {id : OrderID} {block : ReferencesBlock}
    (held : first.orderByIDMap.lookup id = some block) : ∃ resting, first.orders.dlookup block.orderIter = some resting := by
  have there := follows.indexed held
  obtain ⟨_, _, resting, located⟩ := valid.located there
  refine ⟨resting, ?_⟩
  rw [follows.orders]
  exact located.found

private theorem located_of (valid : Valid second) (follows : Follows first second) {id : OrderID} {block : ReferencesBlock} {resting : Order}
    (held : first.orderByIDMap.lookup id = some block) (found : first.orders.dlookup block.orderIter = some resting) :
    ∃ side level, Located second id (plain block) side level resting := by
  have there := follows.indexed held
  obtain ⟨side, level, order, located⟩ := valid.located there
  have same := located.found
  rw [← follows.orders] at same
  cases Option.some.inj (same.symm.trans found)
  exact ⟨side, level, located⟩

theorem handleOrderCancel_pointed (valid : Valid second) (follows : Follows first second) {order resting : Order} {block : ReferencesBlock}
    (held : first.orderByIDMap.lookup order.orderId = some block) (found : first.orders.dlookup block.orderIter = some resting)
    (pointed : block.priceLevelOrderList = first.levelPtr resting.side resting.price) :
    ∃ after, first.handleOrderCancel order = some after ∧ Follows after (second.handleOrderCancel order) := by
  have there := follows.indexed held
  obtain ⟨side, level, located⟩ := located_of valid follows held found
  have sorted : SortedMap.Sorted (before side) (first.levels side) := by
    rw [follows.levels]
    exact valid.sorted side
  have present : level ∈ first.levels side := by
    rw [follows.levels]
    exact located.present
  rw [located.sided, located.priced] at pointed
  obtain ⟨front, back, whole, index⟩ := split_levelPtr sorted present
  have read : first.levelAt (first.levelPtr side level.1) = some level.2 := (levelAt_iff sorted).mpr ⟨level.1, present, rfl⟩
  have linked : level.2.any (fun node => node.iter = block.priceOrderIter) = true :=
    any_eq_true.mpr ⟨_, located.linked, decide_eq_true rfl⟩
  have own : (first.levels side).modify (first.levelPtr side level.1).index
      (fun entry => ⟨entry.1, level.2.eraseP fun node => node.iter = block.priceOrderIter⟩) =
        Listed.unlink block.priceOrderIter (second.levels side) := by
    have whole' := (follows.levels side).symm.trans whole
    rw [whole] at sorted
    have apart : ∀ entry ∈ front ++ back, ∀ node ∈ entry.2, node.iter ≠ block.priceOrderIter := by
      intro entry member node inside names
      have listed : entry ∈ second.levels side := by
        rw [whole']
        exact (mem_append.mp member).elim (mem_append_left _) fun behind => mem_append_right _ (mem_cons_of_mem _ behind)
      have same := (located.only side entry listed node inside names).2
      rcases mem_append.mp member with ahead | behind
      · exact irrefl (r := before side) level.1 (same ▸ sorted.around.1 entry ahead)
      · exact irrefl (r := before side) level.1 (same ▸ sorted.around.2 entry behind)
    have ahead := unlink_absent fun entry member => apart entry (mem_append_left _ member)
    have behind := unlink_absent fun entry member => apart entry (mem_append_right _ member)
    rw [index, whole, whole', modify_middle, eraseP_eq_filter located.distinct]
    conv_lhs => rw [← ahead, ← behind]
    rw [Listed.unlink, Listed.unlink, Listed.unlink, map_append, map_cons]
  have other : first.levels side.opposite = Listed.unlink block.priceOrderIter (second.levels side.opposite) := by
    refine (follows.levels side.opposite).trans (unlink_absent ?_).symm
    intro entry member node inside names
    exact opposite_ne side (located.only side.opposite entry member node inside names).1
  rw [OrderMatchingEngine.handleOrderCancel, held]
  simp only [pointed, read, Option.bind_eq_bind, Option.bind_some, if_pos linked]
  refine ⟨_, rfl, ?_⟩
  rw [Listed.OrderMatchingEngine.handleOrderCancel, there]
  refine ⟨fun which => ?_, ?_, ?_, ?_, ?_⟩
  · cases side <;> cases which <;> first | exact own | exact other
  · cases side <;> exact congrArg (kerase block.orderIter) follows.orders
  · cases side <;> exact follows.trades
  · cases side <;> exact follows.fresh
  · cases side <;> exact follows.index.erase order.orderId

/-- Any other pointer leads to no list, or to one without the node. -/
theorem handleOrderCancel_dangles (valid : Valid second) (follows : Follows first second) {order resting : Order} {block : ReferencesBlock}
    (held : first.orderByIDMap.lookup order.orderId = some block) (found : first.orders.dlookup block.orderIter = some resting)
    (dangles : block.priceLevelOrderList ≠ first.levelPtr resting.side resting.price) : first.handleOrderCancel order = none := by
  obtain ⟨side, level, located⟩ := located_of valid follows held found
  rw [OrderMatchingEngine.handleOrderCancel, held]
  simp only [Option.bind_eq_bind]
  cases read : first.levelAt block.priceLevelOrderList with
  | none => rfl
  | some list =>
    have sorted : SortedMap.Sorted (before block.priceLevelOrderList.side) (first.levels block.priceLevelOrderList.side) := by
      rw [follows.levels]
      exact valid.sorted _
    obtain ⟨price, member, same⟩ := (levelAt_iff sorted).mp read
    refine if_neg fun linked => dangles ?_
    obtain ⟨node, inside, names⟩ := any_eq_true.mp linked
    rw [follows.levels] at member
    obtain ⟨sided, priced⟩ := located.only _ _ member node inside (of_decide_eq_true names)
    rw [located.sided, located.priced, ← sided, ← priced]
    exact same

private theorem handleOrderAmend_follows (valid : Valid second) (follows : Follows first second) {order resting : Order} {block : ReferencesBlock}
    (held : first.orderByIDMap.lookup order.orderId = some block) (found : first.orders.dlookup block.orderIter = some resting)
    {next : Listed.OrderMatchingEngine} (ran : second.handleOrderAmend order = some next)
    (pointed : resting.side = order.side → resting.price ≠ order.price →
      block.priceLevelOrderList = first.levelPtr resting.side resting.price) :
    ∃ after, first.handleOrderAmend grow order = some after ∧ Follows after next := by
  have there := follows.indexed held
  have read : second.orders.dlookup (plain block).orderIter = some resting := follows.orders ▸ found
  rw [Listed.OrderMatchingEngine.handleOrderAmend, there] at ran
  simp only [read, Option.bind_eq_bind, Option.bind_some] at ran
  rw [OrderMatchingEngine.handleOrderAmend, held]
  simp only [found, Option.bind_eq_bind, Option.bind_some]
  split at ran
  next other =>
    cases ran
    exact ⟨first, if_pos other, follows⟩
  next same =>
    rw [if_neg same]
    split at ran
    next moved =>
      obtain ⟨gone, cancelled, meets⟩ := handleOrderCancel_pointed valid follows held found (pointed (not_not.mp same) moved)
      obtain ⟨after, entered, ends⟩ := @handleOrderNew_follows _ _ grow meets _ _ ran
      refine ⟨after, ?_, ends⟩
      rw [if_pos moved, cancelled, Option.bind_some, entered]
    next stays =>
      cases ran
      refine ⟨_, if_neg stays, follows.levels, ?_, follows.trades, follows.fresh, follows.index⟩
      exact congrArg (fun orders => Cells.modify orders block.orderIter fun original => { original with quantity := order.quantity })
        follows.orders

/-- One order fails in the engine exactly when it takes out one whose pointer dangles. -/
theorem processOrder_follows (grow : Nat → Nat) (valid : Valid second) (follows : Follows first second) (order : Order) :
    (Dangles first order → first.processOrder grow order = none) ∧
      (¬ Dangles first order → ∃ after next, first.processOrder grow order = some after ∧
        second.processOrder order = some next ∧ Follows after next ∧ Valid next) := by
  constructor
  · rintro ⟨block, resting, held, found, withdraws, dangles⟩
    have cancelled := handleOrderCancel_dangles valid follows held found dangles
    rw [OrderMatchingEngine.processOrder]
    rcases withdraws with action | ⟨action, side, price⟩
    · rw [action]
      exact cancelled
    · rw [action]
      simp only [OrderMatchingEngine.handleOrderAmend, held, found, cancelled, Option.bind_eq_bind, Option.bind_some, Option.bind_none,
        if_neg (not_not_intro side), if_pos price]
  · intro sound
    obtain ⟨next, ran, kept⟩ := processOrder_valid valid order
    rw [ran]
    rw [Listed.OrderMatchingEngine.processOrder] at ran
    rw [OrderMatchingEngine.processOrder]
    have absent : first.orderByIDMap.lookup order.orderId = none → second.orderByIDMap.lookup order.orderId = none := by
      intro missing
      rw [follows.index, missing]
      rfl
    cases action : order.action with
    | new =>
      rw [action] at ran
      obtain ⟨after, followed, meets⟩ := handleOrderNew_follows follows ran
      exact ⟨after, next, followed, rfl, meets, kept⟩
    | cancel =>
      rw [action] at ran
      cases ran
      cases held : first.orderByIDMap.lookup order.orderId with
      | none =>
        refine ⟨first, _, ?_, rfl, ?_, kept⟩
        · simp only [OrderMatchingEngine.handleOrderCancel, held]
        · simp only [Listed.OrderMatchingEngine.handleOrderCancel, absent held]
          exact follows
      | some block =>
        obtain ⟨resting, found⟩ := resting_of valid follows held
        have pointed : block.priceLevelOrderList = first.levelPtr resting.side resting.price := by
          by_contra dangles
          exact sound ⟨block, resting, held, found, .inl action, dangles⟩
        obtain ⟨after, gone, meets⟩ := handleOrderCancel_pointed valid follows held found pointed
        exact ⟨after, _, gone, rfl, meets, kept⟩
    | amend =>
      rw [action] at ran
      cases held : first.orderByIDMap.lookup order.orderId with
      | none =>
        simp only [Listed.OrderMatchingEngine.handleOrderAmend, absent held] at ran
        cases ran
        refine ⟨first, second, ?_, rfl, follows, kept⟩
        simp only [OrderMatchingEngine.handleOrderAmend, held]
      | some block =>
        obtain ⟨resting, found⟩ := resting_of valid follows held
        obtain ⟨after, changed, meets⟩ := @handleOrderAmend_follows _ _ grow valid follows _ _ _ held found _ ran fun side price => by
          by_contra dangles
          exact sound ⟨block, resting, held, found, .inr ⟨action, side, price⟩, dangles⟩
        exact ⟨after, next, changed, rfl, meets, kept⟩
    | recovery | recoveryEnd =>
      rw [action] at ran
      cases ran
      exact ⟨first, second, rfl, rfl, follows, kept⟩

theorem processOrders_follows {orders : List Order} (reached : OrderMatchingEngine.processOrders grow {} orders = some first) :
    ∃ second, Listed.OrderMatchingEngine.processOrders {} orders = some second ∧ Follows first second ∧ Valid second := by
  refine @Runs.foldlM_records _ _ _ _ (fun orders first => ∃ second, Listed.OrderMatchingEngine.processOrders {} orders = some second ∧
    Follows first second ∧ Valid second) _ _ (fun orders order middle next _ invariant taken => ?_)
    ⟨{}, rfl, initial_follows, initial⟩ reached
  obtain ⟨second, ran, follows, valid⟩ := invariant
  have sound : ¬ Dangles middle order := by
    intro dangles
    rw [(processOrder_follows grow valid follows order).1 dangles] at taken
    cases taken
  obtain ⟨after, later, went, followed, meets, kept⟩ := (processOrder_follows grow valid follows order).2 sound
  cases went.symm.trans taken
  exact ⟨later, (Runs.foldlM_concat_some ran order).trans followed, meets, kept⟩

end Follows
end FinanceTech.Proofs.SimplePointers
