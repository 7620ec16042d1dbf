import FinanceTech.Proofs.MatchingQuantities
import FinanceTech.Proofs.PriceTimeRefinement

/-! Which trades get recorded. An order meets every resting order at most once.
The loop over the levels stops when the order is used up, but the loop over one
level does not look, so an order that is used up between two orders of a level is
recorded with a trade of zero. -/

namespace FinanceTech.Proofs.RecordedTrades
open List Library Matching Matching.Pointer Matching.Pointer.MatchState
open PriceTime PriceTimeFill MatchingLoops MatchingPointers MatchingSteps MatchingRepresentation LevelQuantity
open MatchingPriority MatchingQuantities PriceTimeRefinement

/-- The resting order of a trade. -/
def counterparty (side : OrderSide) (trade : Trade) : OrderID :=
  match side with
  | .buy => trade.sellOrderInfo.id
  | .sell => trade.buyOrderInfo.id

/-- The trades that move something. -/
def AllReal (trades : List Trade) : Prop := ∀ trade ∈ trades, 0 < trade.quantity

/-- These nodes hold exactly this quantity in front of one of them. -/
def EndsBefore (left : Nat) (nodes : List Node) : Prop :=
  ∃ before node after, nodes = before ++ node :: after ∧ total before = left

def EndsInside (side : OrderSide) (price : Price) (left : Nat) (levels : PriceLevelMap) : Prop :=
  ∃ front entry back before node after, levels = front ++ entry :: back ∧ crosses side entry.1 price = true ∧
    entry.2.orders = before ++ node :: after ∧ before ≠ [] ∧ wanted (resting front) + total before = left

/-- The order is matched and is used up between two orders of one level. -/
def EndsBetween (engine : MatchingEngine) (order : Order) : Prop :=
  isMatched engine order = true ∧
    EndsInside order.side order.price order.quantity.toNat (engine.levels order.side.opposite)

private theorem counterparty_between (order matched : Order) : counterparty order.side (Trade.between order matched) = matched.orderId := by
  unfold counterparty Trade.between
  cases order.side <;> rfl

private theorem between_positive {matched : Order} (live : 0 < matched.quantity ∧ matched.quantity < 2 ^ 32) (order : Order) :
    0 < (Trade.between order matched).quantity ↔ order.quantity.toNat ≠ 0 := by
  have positive := UInt64.lt_iff_toNat_lt.mp live.1
  have small : matched.quantity.toNat < 2 ^ 32 := UInt64.lt_iff_toNat_lt.mp live.2
  rw [UInt64.toNat_zero] at positive
  rw [UInt32.lt_iff_toNat_lt, between_quantity, UInt32.toNat_zero]
  omega

theorem allReal_append {first second : List Trade} : AllReal (first ++ second) ↔ AllReal first ∧ AllReal second :=
  forall_mem_append

theorem allReal_cons {trade : Trade} {rest : List Trade} : AllReal (trade :: rest) ↔ 0 < trade.quantity ∧ AllReal rest :=
  forall_mem_cons

theorem endsBefore_cons {left : Nat} {node : Node} {rest : List Node} : EndsBefore left (node :: rest) ↔
    left = 0 ∨ node.order.quantity.toNat ≤ left ∧ EndsBefore (left - node.order.quantity.toNat) rest := by
  constructor
  · rintro ⟨before, other, after, split, rfl⟩
    cases before with
    | nil => exact .inl rfl
    | cons head tail =>
      obtain ⟨rfl, remains⟩ := cons.inj split
      rw [total_cons]
      exact .inr ⟨by omega, tail, other, after, remains, by omega⟩
  · rintro (rfl | ⟨fits, before, other, after, rfl, ends⟩)
    · exact ⟨[], node, rest, rfl, rfl⟩
    · refine ⟨node :: before, other, after, rfl, ?_⟩
      rw [total_cons]
      omega

private theorem matchOrderList_records {state : MatchState} {nodes : List Node} (live : Live (nodes.map Node.order)) :
    ∃ recorded, (matchOrderList state nodes).1.trades = state.trades ++ recorded ∧
      recorded.map (counterparty state.order.side) <+ (nodes.map Node.order).map Order.orderId ∧
      (AllReal recorded ↔ ¬ EndsBefore state.order.quantity.toNat nodes) := by
  induction nodes generalizing state with
  | nil =>
    refine ⟨[], (append_nil _).symm, Sublist.refl _, fun _ => ?_, fun _ trade member => absurd member not_mem_nil⟩
    rintro ⟨before, node, after, split, -⟩
    exact absurd split (by simp)
  | cons node rest ih =>
    obtain ⟨first, others⟩ := forall_mem_cons.mp live
    have turn := between_positive first state.order
    rw [matchOrderList, addTrade_order]
    split
    next fits =>
      let filled : MatchState := { state.addTrade node.order with
        order.quantity := state.order.quantity - node.order.quantity
        orderByIDMap := (state.addTrade node.order).orderByIDMap.erase node.order.orderId }
      obtain ⟨recorded, traded, parties, real⟩ := @ih filled others
      have left : filled.order.quantity.toNat = state.order.quantity.toNat - node.order.quantity.toNat :=
        UInt64.toNat_sub_of_le _ _ fits
      refine ⟨Trade.between state.order node.order :: recorded, traded.trans (append_assoc _ _ _), ?_, ?_⟩
      · rw [map_cons, map_cons, map_cons, counterparty_between]
        exact parties.cons_cons _
      · rw [allReal_cons, real, turn, endsBefore_cons, left]
        have within := UInt64.le_iff_toNat_le.mp fits
        tauto
    next larger =>
      have short := UInt64.lt_iff_toNat_lt.mp (UInt64.not_le.mp larger)
      refine ⟨[Trade.between state.order node.order], rfl, ?_, ?_⟩
      · rw [map_cons, map_cons, map_cons, counterparty_between]
        exact (nil_sublist _).cons_cons _
      · rw [allReal_cons, turn, endsBefore_cons]
        have nothing : AllReal [] := fun trade member => absurd member not_mem_nil
        have beyond := short.not_ge
        tauto

private theorem endsInside_nil (side : OrderSide) (price : Price) (left : Nat) : ¬ EndsInside side price left [] := by
  rintro ⟨front, entry, back, before, node, after, split, -⟩
  exact absurd split (by simp)

theorem endsInside_cons {side : OrderSide} {price : Price} {left : Nat} {entry : (_ : Price) × PriceLevel} {rest : PriceLevelMap} :
    EndsInside side price left (entry :: rest) ↔
      (crosses side entry.1 price = true ∧
        ∃ before node after, entry.2.orders = before ++ node :: after ∧ before ≠ [] ∧ total before = left) ∨
      total entry.2.orders ≤ left ∧ EndsInside side price (left - total entry.2.orders) rest := by
  constructor
  · rintro ⟨front, other, back, before, node, after, split, crossing, orders, some, rfl⟩
    cases front with
    | nil =>
      obtain ⟨rfl, -⟩ := cons.inj split
      exact .inl ⟨crossing, before, node, after, orders, some, (Nat.zero_add _).symm⟩
    | cons head tail =>
      obtain ⟨rfl, remains⟩ := cons.inj split
      rw [resting_cons, wanted_append, ← total_eq]
      refine .inr ⟨by omega, tail, other, back, before, node, after, remains, crossing, orders, some, by omega⟩
  · rintro (⟨crossing, before, node, after, orders, some, rfl⟩ |
      ⟨within, front, other, back, before, node, after, rfl, crossing, orders, some, ends⟩)
    · exact ⟨[], entry, rest, before, node, after, rfl, crossing, orders, some, Nat.zero_add _⟩
    · refine ⟨entry :: front, other, back, before, node, after, rfl, crossing, orders, some, ?_⟩
      rw [resting_cons, wanted_append, ← total_eq]
      omega

private theorem endsBefore_some {left : Nat} (wants : left ≠ 0) (nodes : List Node) : EndsBefore left nodes ↔
    ∃ before node after, nodes = before ++ node :: after ∧ before ≠ [] ∧ total before = left := by
  constructor
  · rintro ⟨before, node, after, split, rfl⟩
    refine ⟨before, node, after, split, ?_, rfl⟩
    rintro rfl
    exact wants rfl
  · rintro ⟨before, node, after, split, -, ends⟩
    exact ⟨before, node, after, split, ends⟩

private theorem endsInside_stops {side : OrderSide} {price : Price} {left : Nat} {entry : (_ : Price) × PriceLevel} {rest : PriceLevelMap}
    (valid : SideValid side.opposite (entry :: rest)) (live : Live (resting (entry :: rest)))
    (stops : left = 0 ∨ crosses side entry.1 price = false) : ¬ EndsInside side price left (entry :: rest) := by
  rintro ⟨front, other, back, before, node, after, split, crossing, orders, some, ends⟩
  rcases stops with rfl | outside
  · obtain ⟨first, tail, rfl⟩ := exists_cons_of_ne_nil some
    have member : first.order ∈ resting (entry :: rest) := by
      rw [split, resting_append, resting_cons, orders]
      simp
    have positive := UInt64.lt_iff_toNat_lt.mp (live _ member).1
    rw [UInt64.toNat_zero] at positive
    rw [total_cons] at ends
    omega
  · cases front with
    | nil =>
      obtain ⟨rfl, -⟩ := cons.inj split
      exact absurd (outside.symm.trans crossing) Bool.false_ne_true
    | cons head tail =>
      obtain ⟨rfl, remains⟩ := cons.inj split
      have member : other ∈ rest := by
        rw [remains]
        exact mem_append_right _ mem_cons_self
      have inside := crosses_of_better (valid.sorted.head_before _ member) crossing
      exact absurd (outside.symm.trans inside) Bool.false_ne_true

private theorem matchLevels_records {state : MatchState} {levels : PriceLevelMap} (valid : SideValid state.order.side.opposite levels)
    (live : Live (resting levels)) :
    ∃ recorded, (matchLevels state levels).1.trades = state.trades ++ recorded ∧
      recorded.map (counterparty state.order.side) <+ (resting levels).map Order.orderId ∧
      (AllReal recorded ↔ ¬ EndsInside state.order.side state.order.price state.order.quantity.toNat levels) := by
  induction levels generalizing state with
  | nil =>
    exact ⟨[], (append_nil _).symm, nil_sublist _, fun _ => endsInside_nil _ _ _, fun _ trade member => absurd member not_mem_nil⟩
  | cons entry rest ih =>
    have tail := valid.tail
    rw [matchLevels_cons]
    split
    next runs =>
      obtain ⟨quantity, same⟩ := matchOrderList_order state entry.2.orders
      obtain ⟨left, -, whole⟩ := matchOrderList_total state entry.2.orders
      rw [resting_cons] at live ⊢
      obtain ⟨recorded, traded, parties, real⟩ := @matchOrderList_records state entry.2.orders
        fun order member => live order (mem_append_left _ member)
      have wants : state.order.quantity.toNat ≠ 0 := by
        have positive := UInt64.lt_iff_toNat_lt.mp runs.1
        rw [UInt64.toNat_zero] at positive
        omega
      rw [endsBefore_some wants] at real
      split
      next empty =>
        obtain ⟨others, later, rest', after⟩ := @ih (matchOrderList state entry.2.orders).1 (by rw [same]; exact tail)
          fun order member => live order (mem_append_right _ member)
        rw [same] at rest'
        rw [left, same] at after
        have behind : AllReal others ↔ ¬ EndsInside state.order.side state.order.price
            (state.order.quantity.toNat - total entry.2.orders) rest := after
        refine ⟨recorded ++ others, ?_, ?_, ?_⟩
        · rw [later, traded, append_assoc]
        · rw [map_append, map_append]
          exact parties.append rest'
        · have within := whole.mp empty
          simp only [allReal_append, real, behind, endsInside_cons, runs.2, within, true_and, not_or]
      next stocked =>
        refine ⟨recorded, traded, ?_, ?_⟩
        · rw [map_append]
          exact parties.trans (sublist_append_left _ _)
        · have beyond := mt whole.mpr stocked
          simp only [real, endsInside_cons, runs.2, beyond, true_and, false_and, or_false]
    next stops =>
      have stopped : state.order.quantity.toNat = 0 ∨ crosses state.order.side entry.1 state.order.price = false := by
        by_cases none : state.order.quantity = 0
        · exact .inl (by rw [none, UInt64.toNat_zero])
        · exact .inr (by simpa [UInt64.pos_iff_ne_zero.mpr none] using stops)
      refine ⟨[], (append_nil _).symm, nil_sublist _, fun _ => endsInside_stops valid live stopped, ?_⟩
      exact fun _ trade member => absurd member not_mem_nil

section Order

variable {engine next : MatchingEngine} {order : Order}

structure Records (engine : MatchingEngine) (order : Order) (next : MatchingEngine) (recorded : List Trade) : Prop where
  trades : next.trades = engine.trades ++ recorded
  once : (recorded.map (counterparty order.side)).Nodup
  real : AllReal recorded ↔ ¬ EndsBetween engine order

theorem Records.quiet (unmatched : isMatched engine order = false) (same : next.trades = engine.trades) :
    Records engine order next [] := by
  refine ⟨same.trans (append_nil _).symm, nodup_nil, fun _ => ?_, fun _ trade member => absurd member not_mem_nil⟩
  rintro ⟨matched, -⟩
  exact absurd (unmatched.symm.trans matched) Bool.false_ne_true

theorem handleOrderNew_records (valid : Valid engine) (live : Live (resting (engine.levels order.side.opposite))) :
    ∃ recorded, (engine.handleOrderNew order).trades = engine.trades ++ recorded ∧
      (recorded.map (counterparty order.side)).Nodup ∧
      (AllReal recorded ↔ ¬ EndsInside order.side order.price order.quantity.toNat (engine.levels order.side.opposite)) := by
  obtain ⟨recorded, traded, parties, real⟩ := @matchLevels_records ⟨order, engine.orderByIDMap, engine.trades⟩ _
    (valid.side order.side.opposite) live
  have unique := side_ids valid order.side.opposite
  rw [book_side] at unique
  exact ⟨recorded, (handleOrderNew_matched valid order).1.trans traded, unique.sublist parties, real⟩

theorem processOrder_records (valid : Valid engine) (live : LiveBook (book engine))
    (ran : engine.processOrder order = some next) : ∃ recorded, Records engine order next recorded := by
  cases processOrder_processed valid ran with
  | ignored other unknown => exact ⟨[], Records.quiet (isMatched_ignored valid other unknown) rfl⟩
  | submitted new =>
    have matched := @isMatched_new engine order new
    obtain ⟨recorded, trades, once, real⟩ := handleOrderNew_records valid (facing live order.side)
    exact ⟨recorded, trades, once, real.trans (not_congr ⟨fun ends => ⟨matched, ends⟩, fun ends => ends.2⟩)⟩
  | cancelled cancel at' id side gone => exact ⟨[], Records.quiet (isMatched_cancel cancel) gone.trades⟩
  | moved amend at' id side price gone =>
    have matched := isMatched_moved valid amend at' id side price
    have other := gone.other
    rw [side] at other
    have live := facing live order.side
    rw [← other] at live
    obtain ⟨recorded, trades, once, real⟩ := handleOrderNew_records (gone.valid valid at') live
    rw [other] at real
    refine ⟨recorded, ?_, once, real.trans (not_congr ⟨fun ends => ⟨matched, ends⟩, fun ends => ends.2⟩)⟩
    rw [trades, gone.trades]
  | requantified amend at' id side price changed =>
    exact ⟨[], Records.quiet (isMatched_requantified valid amend at' id side price) changed.trades⟩

end Order

/-- Every trade of a reached state moves something, and each new order has one
trade with a resting order at most, exactly when no order that is matched is
used up between two orders of a level. -/
theorem real_executions_iff {orders : List Order} (range : ∀ order ∈ orders, InRange order.quantity) :
    ((∀ before engine, before <+: orders → MatchingEngine.processOrders {} before = some engine → AllReal engine.trades) ∧
      ∀ before order after engine next, orders = before ++ order :: after → MatchingEngine.processOrders {} before = some engine →
        engine.processOrder order = some next → order.action = .new →
        ((next.trades.drop engine.trades.length).map (counterparty order.side)).Nodup) ↔
      ∀ before order after engine, orders = before ++ order :: after →
        MatchingEngine.processOrders {} before = some engine → ¬ EndsBetween engine order := by
  have whole : (∀ before engine, before <+: orders → MatchingEngine.processOrders {} before = some engine → AllReal engine.trades) ↔
      ∀ before order after engine, orders = before ++ order :: after →
        MatchingEngine.processOrders {} before = some engine → ¬ EndsBetween engine order := by
    refine @Runs.foldlM_throughout_iff _ _ MatchingEngine.processOrder (fun engine => Valid engine ∧ LiveBook (book engine))
      (fun engine => AllReal engine.trades) (fun engine order => ¬ EndsBetween engine order) orders {} ?_ ?_ ?_
    · exact fun trade member => absurd member not_mem_nil
    · intro before inside
      obtain ⟨engine, reached, -⟩ := processOrders_valid before
      exact ⟨engine, reached, reached_live (fun order member => range order (inside.subset member)) reached⟩
    · rintro engine order next ⟨valid, live⟩ - ran real
      obtain ⟨recorded, trades, -, exactly⟩ := processOrder_records valid live ran
      rw [trades, allReal_append, exactly]
      exact ⟨fun both => both.2, fun never => ⟨real, never⟩⟩
  rw [← whole]
  refine ⟨fun both => both.1, fun real => ⟨real, ?_⟩⟩
  rintro before order after engine next rfl reached ran -
  obtain ⟨valid, live⟩ := reached_live (fun order member => range order (mem_append_left _ member)) reached
  obtain ⟨recorded, trades, once, -⟩ := processOrder_records valid live ran
  rw [trades, drop_left]
  exact once

/-- Two offers of three, and a bid for the first of them. -/
def exactlyFirst : List Order := [⟨.sell, .new, 1, 100, 3⟩, ⟨.sell, .new, 2, 100, 3⟩, ⟨.buy, .new, 3, 100, 3⟩]

theorem real_executions_iff_first :
    ((∀ before engine, before <+: exactlyFirst → MatchingEngine.processOrders {} before = some engine → AllReal engine.trades) ∧
      ∀ before order after engine next, exactlyFirst = before ++ order :: after →
        MatchingEngine.processOrders {} before = some engine → engine.processOrder order = some next → order.action = .new →
        ((next.trades.drop engine.trades.length).map (counterparty order.side)).Nodup) ↔
      ∀ before order after engine, exactlyFirst = before ++ order :: after →
        MatchingEngine.processOrders {} before = some engine → ¬ EndsBetween engine order :=
  real_executions_iff (by decide)

/-- The second offer is recorded with a trade of zero. -/
theorem used_up_records_zero : (∀ order ∈ exactlyFirst, InRange order.quantity) ∧
    ∃ engine, MatchingEngine.processOrders {} exactlyFirst = some engine ∧
      engine.trades = [⟨⟨3, 100⟩, ⟨1, 100⟩, 3⟩, ⟨⟨3, 100⟩, ⟨2, 100⟩, 0⟩] ∧ ¬ AllReal engine.trades := by
  refine ⟨by decide, _, rfl, by decide, ?_⟩
  unfold AllReal
  decide

end FinanceTech.Proofs.RecordedTrades
