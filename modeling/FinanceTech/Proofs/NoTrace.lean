import FinanceTech.Proofs.PriceTimeRefinement
import FinanceTech.Proofs.UntouchedOrder

/-! An order that is placed, never filled and cancelled leaves no trace in the
engine: its levels and queues, what its index leads to and its trades are those
of the run without the order. -/

namespace FinanceTech.Proofs.NoTrace
open List Library Matching Matching.Pointer MatchingLoops MatchingPointers MatchingSteps MatchingRepresentation
open PriceTime PriceTimeFill MatchingPriority PriceTimeRefinement UntouchedOrder

/-- The prices of a side and the queue at each of them. -/
def ladder (levels : PriceLevelMap) : List (Price × List Order) :=
  levels.map fun entry => (entry.1, entry.2.orders.map Node.order)

/-- What the index leads to: the order, the queue it stands in and its place
there. -/
def resolve (engine : MatchingEngine) (id : OrderID) : Option (Order × List Order × Option Nat) := do
  let block ← engine.orderByIDMap.lookup id
  let order ← engine.order? block.order
  let level ← engine.level? block.priceLevel
  return (order, level.orders.map Node.order, level.orders.findIdx? fun node => node.iter = block.iterPriceLevelOrder)

/-- The trades that moved something. -/
def traded (trades : List Trade) : List Trade := trades.filter fun trade => trade.quantity ≠ 0

/-- A trade with an order of this id on one of its sides. -/
def Involves (trade : Trade) (id : OrderID) : Prop := trade.buyOrderInfo.id = id ∨ trade.sellOrderInfo.id = id

instance (trade : Trade) (id : OrderID) : Decidable (Involves trade id) := inferInstanceAs (Decidable (_ ∨ _))

structure SameState (first second : MatchingEngine) : Prop where
  levels : ∀ side, ladder (first.levels side) = ladder (second.levels side)
  indexed : ∀ id, id ∈ first.orderByIDMap ↔ id ∈ second.orderByIDMap
  resolved : ∀ id, resolve first id = resolve second id
  trades : traded first.trades = traded second.trades

theorem price_of_head {side : OrderSide} {entry : (_ : Price) × PriceLevel} {rest : PriceLevelMap}
    (valid : SideValid side (entry :: rest)) : ∀ order ∈ entry.2.orders.map Node.order, order.price = entry.1 := by
  intro order member
  obtain ⟨node, inside, rfl⟩ := mem_map.mp member
  exact ((valid.stocked entry mem_cons_self).2 node inside).2

private theorem price_of_tail {side : OrderSide} {entry : (_ : Price) × PriceLevel} {rest : PriceLevelMap}
    (valid : SideValid side (entry :: rest)) : ∀ order ∈ resting rest, order.price ≠ entry.1 := by
  intro order member same
  obtain ⟨other, present, price⟩ := price_of_mem (SideValid.sublist valid (sublist_cons_self _ _)) member
  have before := valid.sorted.head_before _ present
  rw [← price, same] at before
  exact irrefl (r := better side) _ before

theorem queue_eq {side : OrderSide} {entry : (_ : Price) × PriceLevel} {rest : PriceLevelMap}
    (valid : SideValid side (entry :: rest)) :
    (resting (entry :: rest)).filter (fun order => order.price = entry.1) = entry.2.orders.map Node.order ∧
      (resting (entry :: rest)).filter (fun order => order.price ≠ entry.1) = resting rest := by
  have inside := price_of_head valid
  have outside := price_of_tail valid
  rw [resting_cons, filter_append, filter_append]
  constructor
  · rw [filter_eq_self.mpr fun order member => by simpa using inside order member,
      filter_eq_nil_iff.mpr fun order member => by simpa using outside order member, append_nil]
  · rw [filter_eq_nil_iff.mpr fun order member => by simpa using inside order member,
      filter_eq_self.mpr fun order member => by simpa using outside order member, nil_append]

theorem head_exists {side : OrderSide} {entry : (_ : Price) × PriceLevel} {rest : PriceLevelMap}
    (valid : SideValid side (entry :: rest)) : ∃ order more, entry.2.orders.map Node.order = order :: more ∧ order.price = entry.1 := by
  cases held : entry.2.orders with
  | nil => exact absurd held (valid.stocked entry mem_cons_self).1
  | cons node more =>
    refine ⟨node.order, more.map Node.order, rfl, price_of_head valid _ ?_⟩
    rw [held]
    exact mem_cons_self

private theorem ladder_ext {side : OrderSide} {first second : PriceLevelMap} (left : SideValid side first) (right : SideValid side second)
    (same : resting first = resting second) : ladder first = ladder second := by
  induction first generalizing second with
  | nil =>
    cases second with
    | nil => rfl
    | cons entry rest =>
      obtain ⟨order, more, held, -⟩ := head_exists right
      rw [resting_cons, held] at same
      cases same
  | cons entry rest ih =>
    obtain ⟨order, more, held, price⟩ := head_exists left
    cases second with
    | nil =>
      rw [resting_cons, held] at same
      cases same
    | cons other later =>
      obtain ⟨opposed, others, stored, priced⟩ := head_exists right
      have prices : entry.1 = other.1 := by
        have heads := same
        rw [resting_cons, resting_cons, held, stored] at heads
        rw [← price, ← priced, (cons.inj heads).1]
      obtain ⟨queue, tail⟩ := queue_eq left
      obtain ⟨queued, tailed⟩ := queue_eq right
      rw [same, prices] at queue tail
      have rests := ih (SideValid.sublist left (sublist_cons_self _ _)) (SideValid.sublist right (sublist_cons_self _ _))
        (tail.symm.trans tailed)
      rw [ladder, map_cons, ← ladder, rests, ← queue, queued, prices]
      rfl

theorem findIdx?_middle {α : Type} {p : α → Bool} {before after : List α} {item : α} (skips : ∀ other ∈ before, p other = false)
    (holds : p item = true) : (before ++ item :: after).findIdx? p = some before.length := by
  rw [findIdx?_append, findIdx?_eq_none_iff.mpr skips, findIdx?_cons, holds]
  simp

variable {engine : MatchingEngine} {position : Position}

theorem resolve_at (valid : Valid engine) (at' : position.At engine) :
    resolve engine position.node.order.orderId = some (position.node.order, position.level.orders.map Node.order,
      (position.level.orders.map Node.order).findIdx? fun order => order.orderId = position.node.order.orderId) := by
  have iters := at'.apart valid Node.iter iters_sublist
  have ids := apart valid at'
  have byIter : position.level.orders.findIdx? (fun node => node.iter = position.block.iterPriceLevelOrder) =
      some position.before.length := by
    rw [at'.orders]
    apply findIdx?_middle
    · exact fun other member => decide_eq_false (iters other (mem_append_left _ member))
    · exact decide_eq_true rfl
  have byId : (position.level.orders.map Node.order).findIdx? (fun order => order.orderId = position.node.order.orderId) =
      some position.before.length := by
    rw [at'.orders, map_append, map_cons, ← length_map Node.order]
    apply findIdx?_middle
    · exact fun other member => decide_eq_false (ids other (mem_append_left _ (mem_append_right _ member)))
    · exact decide_eq_true rfl
  rw [resolve, indexed valid at', Option.bind_eq_bind, Option.bind_some, at'.order? valid, Option.bind_eq_bind, Option.bind_some,
    at'.level? valid, Option.bind_eq_bind, Option.bind_some, byIter, byId]
  rfl

private theorem resolve_eq {first second : MatchingEngine} (left : Valid first) (right : Valid second)
    (levels : ∀ side, ladder (first.levels side) = ladder (second.levels side))
    (indexed : ∀ id, id ∈ first.orderByIDMap ↔ id ∈ second.orderByIDMap) (id : OrderID) : resolve first id = resolve second id := by
  cases found : first.orderByIDMap.lookup id with
  | none =>
    have missing : second.orderByIDMap.lookup id = none := by
      apply Finmap.lookup_eq_none.mpr
      rw [← indexed]
      exact Finmap.lookup_eq_none.mp found
    rw [resolve, resolve, found, missing]
    rfl
  | some block =>
    obtain ⟨position, at', rfl, -⟩ := locate left found
    have listed : (position.node.order.price, position.level.orders.map Node.order) ∈ ladder (second.levels position.side) := by
      rw [← levels]
      exact mem_map.mpr ⟨_, at'.entry_mem, rfl⟩
    obtain ⟨entry, present, same⟩ := mem_map.mp listed
    obtain ⟨-, queue⟩ := Prod.mk.inj same
    have member : position.node.order ∈ entry.2.orders.map Node.order := by
      rw [queue]
      exact mem_map_of_mem at'.node_mem
    obtain ⟨node, inside, order⟩ := mem_map.mp member
    obtain ⟨other, there, -, rfl, level⟩ := position_of_mem right present inside
    have resolved := resolve_at right there
    rw [order, level, queue] at resolved
    rw [resolve_at left at', resolved]

private theorem ofTrade_injective : Function.Injective Execution.ofTrade := by
  rintro ⟨buy, sell, quantity⟩ ⟨bought, sold, moved⟩ same
  obtain ⟨rfl, rfl, wide⟩ := Execution.mk.inj same
  have narrow : quantity = moved := by
    have same := congrArg UInt64.toUInt32 wide
    rwa [UInt32.toUInt32_toUInt64, UInt32.toUInt32_toUInt64] at same
  rw [narrow]

private theorem traded_eq {first second : List Trade} (same : executed first = executed second) : traded first = traded second :=
  map_injective_iff.mpr ofTrade_injective same

private theorem resting_served {side : OrderSide} {levels : PriceLevelMap} (valid : SideValid side levels) :
    Served side (resting levels) := by
  induction levels with
  | nil => exact .nil
  | cons entry rest ih =>
    have inside := price_of_head valid
    have tail := SideValid.sublist valid (sublist_cons_self _ _)
    rw [resting_cons]
    refine pairwise_append.mpr ⟨?_, ih tail, ?_⟩
    · refine pairwise_of_forall_mem_list fun first member second present before => ?_
      rw [earlier_iff, inside first member, inside second present] at before
      exact irrefl (r := better side) _ before
    · intro first member second present before
      obtain ⟨other, listed, price⟩ := price_of_mem tail present
      rw [earlier_iff, inside first member, price] at before
      exact asymm (r := better side) (valid.sorted.head_before _ listed) before

theorem sameState_of_book {first second : MatchingEngine} (left : Valid first) (right : Valid second)
    (same : book first = book second) (executions : executed first.trades = executed second.trades) : SameState first second := by
  have levels : ∀ side, ladder (first.levels side) = ladder (second.levels side) := by
    intro side
    apply ladder_ext (left.side side) (right.side side)
    rw [← book_side, ← book_side, same]
  have indexed : ∀ id, id ∈ first.orderByIDMap ↔ id ∈ second.orderByIDMap := by
    intro id
    rw [mem_ids left, mem_ids right, same]
  exact ⟨levels, indexed, resolve_eq left right levels indexed, traded_eq executions⟩

/-- An order that is placed without crossing, takes part in no trade that moves
anything and is cancelled leaves the engine as it would be without it. -/
theorem cancelled_leaves_no_trace {history orders : List Order} {engine touched : MatchingEngine} {x cancel : Order}
    (reached : MatchingEngine.processOrders {} history = some engine) (small : ∀ order ∈ history, InRange order.quantity)
    (new : x.action = .new) (range : InRange x.quantity) (fresh : x.orderId ∉ engine.orderByIDMap)
    (apart : ∀ entry ∈ engine.levels x.side.opposite, crosses x.side entry.1 x.price = false)
    (others : ∀ order ∈ orders, InRange order.quantity ∧ order.orderId ≠ x.orderId)
    (ran : engine.processOrders (x :: orders) = some touched)
    (untouched : ∀ trade ∈ touched.trades.drop engine.trades.length, trade.quantity ≠ 0 → ¬ Involves trade x.orderId)
    (action : cancel.action = .cancel) (id : cancel.orderId = x.orderId) (side : cancel.side = x.side) :
    ∃ final without, engine.processOrders (x :: orders ++ [cancel]) = some final ∧
      engine.processOrders orders = some without ∧ SameState final without := by
  obtain ⟨valid, live⟩ := reached_live small reached
  have ranges : ∀ order ∈ x :: orders, InRange order.quantity :=
    forall_mem_cons.mpr ⟨range, fun order member => (others order member).1⟩
  obtain ⟨held, arrived, after, alive, ⟨recorded, trades, executions⟩, stored⟩ := processOrders_comes ranges valid live
  rw [ran] at arrived
  obtain rfl := Option.some.inj arrived
  obtain ⟨without, plain, well, -, ⟨others', logged, served'⟩, booked⟩ :=
    processOrders_comes (fun order member => (others order member).1) valid live
  have quiet : ∀ execution ∈ (serve (book engine) (x :: orders)).1, ¬ execution.Involves x.orderId := by
    rw [← executions]
    intro execution member
    obtain ⟨trade, inside, rfl⟩ := mem_map.mp member
    obtain ⟨listed, moved⟩ := mem_filter.mp inside
    refine untouched trade ?_ (by simpa using moved)
    rw [trades, drop_left]
    exact listed
  have uncrossed : ∀ resting ∈ (book engine).side x.side.opposite, crossing x.side x.price resting = false := by
    intro resting member
    rw [book_side] at member
    obtain ⟨entry, present, price⟩ := price_of_mem (valid.side x.side.opposite) member
    rw [← crosses_eq, price]
    exact apart entry present
  have unlisted : x.orderId ∉ (book engine).ids := mt (mem_ids valid x.orderId).mpr fresh
  have served : Served x.side ((book engine).side x.side) := by
    rw [book_side]
    exact resting_served (valid.side x.side)
  obtain ⟨same, left⟩ := serve_untouched live served new range unlisted uncrossed others quiet action id side
  obtain ⟨final, last, -, ⟨more, ends, quietly⟩, left_book⟩ := processOrder_comes after alive cancel
  obtain ⟨reached, well', final_valid⟩ := processOrder_valid after cancel
  rw [last] at well'
  obtain rfl := Option.some.inj well'
  rw [stored, left] at quietly left_book
  refine ⟨final, without, ?_, plain, sameState_of_book final_valid well ?_ ?_⟩
  · rw [MatchingEngine.processOrders, foldlM_append]
    have first : (x :: orders).foldlM MatchingEngine.processOrder engine = some touched := ran
    rw [first]
    exact (Option.bind_some _ _).trans ((congrArg (Option.bind · _) last).trans rfl)
  · rw [left_book, booked]
  · rw [ends, trades, logged, executed_append, executed_append, executed_append, quietly, executions, served', same, append_nil]

/-- The order keeps a level alive that would be erased without it, and is
recorded with a trade of zero. -/
theorem cancelled_leaves_no_trace_behind :
    let engine := ({} : MatchingEngine).handleOrderNew ⟨.sell, .new, 1, 100, 4⟩
    let orders : List Order := [⟨.buy, .new, 2, 100, 4⟩, ⟨.sell, .new, 3, 100, 3⟩]
    ∃ final without, engine.processOrders (⟨.sell, .new, 9, 100, 5⟩ :: orders ++ [⟨.sell, .cancel, 9, 0, 1⟩]) = some final ∧
      engine.processOrders orders = some without ∧ SameState final without :=
  @cancelled_leaves_no_trace [⟨.sell, .new, 1, 100, 4⟩] [⟨.buy, .new, 2, 100, 4⟩, ⟨.sell, .new, 3, 100, 3⟩] _ _
    ⟨.sell, .new, 9, 100, 5⟩ ⟨.sell, .cancel, 9, 0, 1⟩ rfl (by decide) rfl (by decide) (by decide) (by decide) (by decide) rfl
    (by decide) rfl rfl rfl

end FinanceTech.Proofs.NoTrace
