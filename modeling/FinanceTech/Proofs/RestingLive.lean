import FinanceTech.Proofs.LevelQuantity
import FinanceTech.Proofs.PriceTimeRefinement

/-! Which orders rest. Matching leaves no resting order without a quantity, and
an order that arrives without one is not stored, but amending a resting order in
place gives it any quantity. -/

namespace FinanceTech.Proofs.RestingLive
open List Library Matching Matching.Pointer Matching.Pointer.MatchState
open PriceTime PriceTimeFill MatchingLoops MatchingPointers MatchingSteps MatchingRepresentation LevelQuantity
open MatchingPriority PriceTimeRefinement

def Wanting (orders : List Order) : Prop := ∀ order ∈ orders, 0 < order.quantity

/-- Every resting order still wants something. -/
def AllLive (engine : MatchingEngine) : Prop := ∀ side, Wanting (resting (engine.levels side))

/-- The order takes the quantity of a resting order away and leaves its price. -/
def Empties (engine : MatchingEngine) (order : Order) : Prop :=
  order.action = .amend ∧ order.quantity = 0 ∧
    ∃ other ∈ resting (engine.levels order.side), other.orderId = order.orderId ∧ other.price = order.price

theorem wanting_append {first second : List Order} : Wanting (first ++ second) ↔ Wanting first ∧ Wanting second :=
  forall_mem_append

theorem wanting_cons {order : Order} {rest : List Order} : Wanting (order :: rest) ↔ 0 < order.quantity ∧ Wanting rest :=
  forall_mem_cons

private theorem matchOrderList_wanting (state : MatchState) {nodes : List Node} (live : Wanting (nodes.map Node.order)) :
    Wanting ((matchOrderList state nodes).2.map Node.order) := by
  induction nodes generalizing state with
  | nil => exact live
  | cons node rest ih =>
    obtain ⟨first, others⟩ := wanting_cons.mp live
    rw [matchOrderList, addTrade_order]
    split
    next => exact ih _ others
    next larger =>
      have short := UInt64.not_le.mp larger
      have left : 0 < node.order.quantity - state.order.quantity := by
        rw [UInt64.lt_iff_toNat_lt, UInt64.toNat_sub_of_le _ _ (UInt64.le_of_lt short), UInt64.toNat_zero]
        exact Nat.sub_pos_of_lt (UInt64.lt_iff_toNat_lt.mp short)
      exact wanting_cons.mpr ⟨left, others⟩

private theorem matchLevels_wanting (state : MatchState) {levels : PriceLevelMap} (live : Wanting (resting levels)) :
    Wanting (resting (matchLevels state levels).2) := by
  induction levels generalizing state with
  | nil => exact live
  | cons entry rest ih =>
    rw [resting_cons, wanting_append] at live
    have kept := matchOrderList_wanting state live.1
    rw [matchLevels_cons]
    split
    next =>
      split
      next => exact ih _ live.2
      next =>
        rw [resting_cons, wanting_append]
        exact ⟨kept, live.2⟩
    next =>
      rw [resting_cons, wanting_append]
      exact live

section Order

variable {engine next : MatchingEngine} {order : Order}

theorem allLive_of_sides (side : OrderSide) (own : Wanting (resting (engine.levels side)))
    (other : Wanting (resting (engine.levels side.opposite))) : AllLive engine := by
  intro wanted
  cases side <;> cases wanted <;> assumption

theorem handleOrderNew_allLive (valid : Valid engine) (live : AllLive engine) (order : Order) :
    AllLive (engine.handleOrderNew order) := by
  have own := live order.side
  have other := @matchLevels_wanting ⟨order, engine.orderByIDMap, engine.trades⟩ _ (live order.side.opposite)
  rw [← matchOrder_opposite] at other
  rw [← matchOrder_own engine order] at own
  rcases handleOrderNew_cases valid order with ⟨-, same⟩ | ⟨remains, -, position, inserted, after⟩
  · rw [same]
    exact allLive_of_sides order.side own other
  · obtain ⟨quantity, same⟩ := matchOrder_order engine order
    have side : (engine.matchOrder order).1.side = order.side := by rw [same]
    have facing := inserted.other
    have stored := Inserted.resting inserted after
    rw [side] at facing stored
    apply allLive_of_sides order.side
    · rw [stored]
      intro resting member
      rcases (mem_orderedInsert _).mp member with rfl | member
      · exact UInt64.pos_iff_ne_zero.mpr remains
      · exact own resting member
    · rw [facing]
      exact other

theorem cancelled_allLive {position : Position} (at' : position.At engine) (gone : Cancelled engine position next)
    (live : AllLive engine) : AllLive next := by
  have own := live position.side
  rw [← book_side, at_resting at', wanting_append, wanting_cons] at own
  apply allLive_of_sides position.side
  · rw [Cancelled.remains gone, wanting_append]
    exact ⟨own.1, own.2.2⟩
  · rw [gone.other]
    exact live position.side.opposite

private theorem requantified_allLive {position : Position} {quantity : Quantity} (at' : position.At engine)
    (changed : Requantified engine position quantity next) (live : AllLive engine) : AllLive next ↔ 0 < quantity := by
  have own := live position.side
  rw [← book_side, at_resting at', wanting_append, wanting_cons] at own
  constructor
  · intro after
    have here := after position.side
    rw [Requantified.remains changed, wanting_append, wanting_cons] at here
    exact here.2.1
  · intro positive
    apply allLive_of_sides position.side
    · rw [Requantified.remains changed, wanting_append, wanting_cons]
      exact ⟨own.1, positive, own.2.2⟩
    · rw [changed.other]
      exact live position.side.opposite

theorem empties_at (valid : Valid engine) {position : Position} (at' : position.At engine)
    (id : position.node.order.orderId = order.orderId) (side : position.side = order.side) :
    Empties engine order ↔ order.action = .amend ∧ order.quantity = 0 ∧ position.node.order.price = order.price := by
  have held : position.node.order ∈ resting (engine.levels order.side) := by
    rw [← side, ← book_side, at_resting at']
    exact mem_append_right _ mem_cons_self
  constructor
  · rintro ⟨amend, none, other, member, named, price⟩
    have unique := side_ids valid order.side
    rw [book_side] at unique
    rw [inj_on_of_nodup_map unique held member (id.trans named.symm)]
    exact ⟨amend, none, price⟩
  · rintro ⟨amend, none, price⟩
    exact ⟨amend, none, position.node.order, held, id, price⟩

private theorem processOrder_allLive (valid : Valid engine) (ran : engine.processOrder order = some next) (live : AllLive engine) :
    AllLive next ↔ ¬ Empties engine order := by
  cases processOrder_processed valid ran with
  | ignored other unknown =>
    refine ⟨fun _ => ?_, fun _ => live⟩
    rintro ⟨amend, -, other, member, named, -⟩
    rw [← book_side] at member
    exact unknown_apart valid (unknown (.inr amend)) other member named
  | submitted new =>
    refine ⟨fun _ => ?_, fun _ => handleOrderNew_allLive valid live order⟩
    rintro ⟨amend, -⟩
    exact absurd (new.symm.trans amend) (by decide)
  | cancelled cancel at' id side gone =>
    refine ⟨fun _ => ?_, fun _ => cancelled_allLive at' gone live⟩
    rintro ⟨amend, -⟩
    exact absurd (cancel.symm.trans amend) (by decide)
  | moved amend at' id side price gone =>
    refine ⟨fun _ empties => ?_, fun _ => handleOrderNew_allLive (gone.valid valid at') (cancelled_allLive at' gone live) order⟩
    exact price ((empties_at valid at' id side).mp empties).2.2
  | requantified amend at' id side price changed =>
    rw [requantified_allLive at' changed live, empties_at valid at' id side, UInt64.pos_iff_ne_zero]
    exact ⟨fun some empties => some empties.2.1, fun never none => never ⟨amend, none, price⟩⟩

end Order

/-- Every resting order of every reached state wants something exactly when no
order amends a resting one to zero at its own price. -/
theorem resting_live_iff (orders : List Order) :
    (∀ before engine, before <+: orders → MatchingEngine.processOrders {} before = some engine → AllLive engine) ↔
      ∀ before order after engine, orders = before ++ order :: after →
        MatchingEngine.processOrders {} before = some engine → ¬ Empties engine order := by
  refine @Runs.foldlM_throughout_iff _ _ MatchingEngine.processOrder Valid AllLive (fun engine order => ¬ Empties engine order)
    orders {} ?_ ?_ ?_
  · intro side
    cases side <;> exact fun order member => absurd member not_mem_nil
  · exact fun before _ => processOrders_valid before
  · exact fun engine order next valid _ ran live => processOrder_allLive valid ran live

/-- A bid amended to zero stays the best bid. -/
theorem amend_empties :
    ∃ engine, MatchingEngine.processOrders {} [⟨.buy, .new, 1, 100, 5⟩, ⟨.buy, .amend, 1, 100, 0⟩] = some engine ∧
      engine.getBestBuyOrder = some ⟨.buy, .new, 1, 100, 0⟩ ∧ engine.getBuyPriceLevelCount = 1 ∧ ¬ AllLive engine := by
  refine ⟨_, rfl, by decide, by decide, fun live => ?_⟩
  have positive := live .buy ⟨.buy, .new, 1, 100, 0⟩ (by decide)
  exact absurd positive (by decide)

end FinanceTech.Proofs.RestingLive
