import FinanceTech.Proofs.LevelQuantity
import FinanceTech.Proofs.MatchingPriority

/-! What matching moves, whatever the quantities are: the orders that cross give
up as much as the incoming order takes, and the trades record it as far as their
32 bits go. -/

namespace FinanceTech.Proofs.MatchingQuantities
open List Library Matching Matching.Pointer Matching.Pointer.MatchState
open PriceTime MatchingLoops MatchingPointers MatchingSteps MatchingRepresentation LevelQuantity MatchingPriority

/-- What some orders want together. -/
def wanted (orders : List Order) : Nat := (orders.map fun order => order.quantity.toNat).sum

/-- What some trades record together. -/
def moved (trades : List Trade) : Nat := (trades.map fun trade => trade.quantity.toNat).sum

@[simp] theorem wanted_nil : wanted [] = 0 := rfl

@[simp] theorem wanted_cons (order : Order) (rest : List Order) : wanted (order :: rest) = order.quantity.toNat + wanted rest := by
  simp only [wanted, map_cons, sum_cons]

@[simp] theorem wanted_append (first second : List Order) : wanted (first ++ second) = wanted first + wanted second := by
  simp only [wanted, map_append, sum_append]

@[simp] theorem moved_nil : moved [] = 0 := rfl

@[simp] theorem moved_cons (trade : Trade) (rest : List Trade) : moved (trade :: rest) = trade.quantity.toNat + moved rest := by
  simp only [moved, map_cons, sum_cons]

@[simp] theorem moved_append (first second : List Trade) : moved (first ++ second) = moved first + moved second := by
  simp only [moved, map_append, sum_append]

theorem total_eq (nodes : List Node) : total nodes = wanted (nodes.map Node.order) := by
  rw [total, wanted, map_map]
  rfl

private theorem toNat_min (first second : UInt64) : (min first second).toNat = min first.toNat second.toNat := by
  rw [PriceTimeFill.min_eq, Nat.min_def]
  simp only [UInt64.le_iff_toNat_le]
  split <;> rfl

theorem between_quantity (order matched : Order) : (Trade.between order matched).quantity.toNat =
    min matched.quantity.toNat order.quantity.toNat % 2 ^ 32 := by
  have recorded : (Trade.between order matched).quantity = (min matched.quantity order.quantity).toUInt32 := by
    unfold Trade.between
    cases order.side <;> rfl
  rw [recorded, UInt64.toNat_toUInt32, toNat_min]

/-- None of the orders is taken for more than a trade can record, when they are
served one after the other. -/
def Narrow (left : Nat) (orders : List Order) : Prop :=
  ∀ before resting after, orders = before ++ resting :: after →
    min resting.quantity.toNat (left - wanted before) < 2 ^ 32

private theorem narrow_cons {left : Nat} {order : Order} {rest : List Order} : Narrow left (order :: rest) ↔
    min order.quantity.toNat left < 2 ^ 32 ∧ Narrow (left - order.quantity.toNat) rest := by
  constructor
  · intro narrow
    refine ⟨narrow [] order rest rfl, fun before resting after split => ?_⟩
    have deeper := narrow (order :: before) resting after (congrArg (order :: ·) split)
    rwa [wanted_cons, ← Nat.sub_sub] at deeper
  · rintro ⟨first, others⟩ before resting after split
    cases before with
    | nil =>
      obtain ⟨rfl, -⟩ := cons.inj split
      exact first
    | cons head tail =>
      obtain ⟨rfl, remains⟩ := cons.inj split
      rw [wanted_cons, ← Nat.sub_sub]
      exact others tail resting after remains

private theorem narrow_append {left : Nat} {first second : List Order} : Narrow left (first ++ second) ↔
    Narrow left first ∧ Narrow (left - wanted first) second := by
  induction first generalizing left with
  | nil =>
    refine ⟨fun narrow => ⟨?_, narrow⟩, fun both => both.2⟩
    intro before resting after split
    exact absurd split (by simp)
  | cons order rest ih => rw [cons_append, narrow_cons, narrow_cons, ih, wanted_cons, ← Nat.sub_sub, and_assoc]

theorem narrow_small {left : Nat} (small : left < 2 ^ 32) (orders : List Order) : Narrow left orders := by
  intro before resting after _
  omega

/-- The orders of these levels that an incoming order can trade with. -/
def reached (side : OrderSide) (price : Price) (levels : PriceLevelMap) : List Order :=
  (resting levels).filter fun order => crossing side price order

/-- The orders that an order can trade with when it arrives. -/
def opposing (engine : MatchingEngine) (order : Order) : List Order :=
  reached order.side order.price (engine.levels order.side.opposite)

section Reached

variable {side : OrderSide} {price : Price} {entry : (_ : Price) × PriceLevel} {rest : PriceLevelMap}

theorem reached_cons (valid : SideValid side.opposite (entry :: rest)) (inside : crosses side entry.1 price = true) :
    reached side price (entry :: rest) = entry.2.orders.map Node.order ++ reached side price rest := by
  have whole : (entry.2.orders.map Node.order).filter (fun order => crossing side price order) = entry.2.orders.map Node.order := by
    apply filter_eq_self.mpr
    intro order member
    obtain ⟨node, held, rfl⟩ := mem_map.mp member
    rw [← crosses_eq, ((valid.stocked entry mem_cons_self).2 node held).2]
    exact inside
  rw [reached, resting_cons, filter_append, whole, reached]

private theorem reached_none (valid : SideValid side.opposite (entry :: rest)) (outside : crosses side entry.1 price = false) :
    reached side price (entry :: rest) = [] := by
  apply filter_eq_nil_iff.mpr
  intro order member
  rw [uncrossed_behind valid outside order member]
  exact Bool.false_ne_true

end Reached

/-- What a loop over these orders has done to quantities. -/
structure Settled (state : MatchState) (orders : List Order) (next : MatchState) : Prop where
  left : next.order.quantity.toNat = state.order.quantity.toNat - wanted orders
  recorded : ∃ recorded, next.trades = state.trades ++ recorded ∧
    moved recorded ≤ min state.order.quantity.toNat (wanted orders) ∧
    (moved recorded = min state.order.quantity.toNat (wanted orders) ↔ Narrow state.order.quantity.toNat orders)

theorem Settled.stop {state : MatchState} {orders : List Order} (stops : state.order.quantity = 0 ∨ orders = []) :
    Settled state orders state := by
  rcases stops with none | rfl
  · have zero : state.order.quantity.toNat = 0 := by rw [none, UInt64.toNat_zero]
    refine ⟨by omega, [], (append_nil _).symm, Nat.zero_le _, ?_⟩
    rw [zero, Nat.zero_min]
    exact ⟨fun _ => narrow_small (by decide) orders, fun _ => rfl⟩
  · refine ⟨rfl, [], (append_nil _).symm, Nat.zero_le _, ?_⟩
    rw [wanted_nil, Nat.min_zero]
    refine ⟨fun _ before resting after split => ?_, fun _ => rfl⟩
    exact absurd split (by simp)

theorem Settled.trans {state middle next : MatchState} {first second : List Order} (one : Settled state first middle)
    (two : Settled middle second next) : Settled state (first ++ second) next := by
  obtain ⟨left, recorded, traded, within, exact'⟩ := one
  obtain ⟨remains, others, later, below, rest⟩ := two
  rw [left] at remains below rest
  refine ⟨?_, recorded ++ others, ?_, ?_, ?_⟩
  · rw [remains, wanted_append, Nat.sub_sub]
  · rw [later, traded, append_assoc]
  · rw [moved_append, wanted_append]
    omega
  · rw [narrow_append, ← exact', ← rest, moved_append, wanted_append]
    omega

/-- One turn, which takes the smaller of both quantities. -/
theorem Settled.single {state next : MatchState} {matched : Order} (trades : next.trades = state.trades ++ [Trade.between state.order matched])
    (left : next.order.quantity.toNat = state.order.quantity.toNat - matched.quantity.toNat) : Settled state [matched] next := by
  have recorded := between_quantity state.order matched
  refine ⟨?_, [Trade.between state.order matched], trades, ?_, ?_⟩
  · rw [left, wanted_cons, wanted_nil, Nat.add_zero]
  · rw [moved_cons, moved_nil, wanted_cons, wanted_nil, recorded]
    omega
  · rw [narrow_cons, moved_cons, moved_nil, wanted_cons, wanted_nil, recorded]
    have none : Narrow (state.order.quantity.toNat - matched.quantity.toNat) [] := by
      intro before resting after split
      exact absurd split (by simp)
    simp only [none, and_true]
    omega

private theorem matchOrderList_settled (state : MatchState) (nodes : List Node) :
    Settled state (nodes.map Node.order) (matchOrderList state nodes).1 := by
  induction nodes generalizing state with
  | nil => exact Settled.stop (.inr rfl)
  | cons node rest ih =>
    rw [matchOrderList, map_cons, addTrade_order]
    split
    next fits =>
      let filled : MatchState := { state.addTrade node.order with
        order.quantity := state.order.quantity - node.order.quantity
        orderByIDMap := (state.addTrade node.order).orderByIDMap.erase node.order.orderId }
      have one : Settled state [node.order] filled := Settled.single rfl (UInt64.toNat_sub_of_le _ _ fits)
      exact one.trans (ih filled)
    next larger =>
      let used : MatchState := { state.addTrade node.order with order.quantity := 0 }
      have short := UInt64.lt_iff_toNat_lt.mp (UInt64.not_le.mp larger)
      have one : Settled state [node.order] used := by
        apply Settled.single rfl
        show (0 : UInt64).toNat = _
        rw [UInt64.toNat_zero]
        omega
      exact one.trans (@Settled.stop used (rest.map Node.order) (.inl rfl))

theorem matchLevels_settled {state : MatchState} {levels : PriceLevelMap} (valid : SideValid state.order.side.opposite levels) :
    Settled state (reached state.order.side state.order.price levels) (matchLevels state levels).1 := by
  induction levels generalizing state with
  | nil => exact Settled.stop (.inr rfl)
  | cons entry rest ih =>
    have tail := valid.tail
    obtain ⟨quantity, same⟩ := matchOrderList_order state entry.2.orders
    have one := matchOrderList_settled state entry.2.orders
    rw [matchLevels_cons]
    split
    next runs =>
      rw [reached_cons valid runs.2]
      split
      next empty =>
        have later := @ih (matchOrderList state entry.2.orders).1 (by rw [same]; exact tail)
        rw [same] at later
        exact one.trans later
      next stocked => exact one.trans (Settled.stop (.inl (matchOrderList_left stocked)))
    next stops =>
      by_cases none : state.order.quantity = 0
      · exact Settled.stop (.inl none)
      · have outside : crosses state.order.side entry.1 state.order.price = false := by
          simpa [UInt64.pos_iff_ne_zero.mpr none] using stops
        exact Settled.stop (.inr (reached_none valid outside))

theorem handleOrderNew_matched {engine : MatchingEngine} (valid : Valid engine) (order : Order) :
    (engine.handleOrderNew order).trades = (engine.matchOrder order).2.trades ∧
      (engine.handleOrderNew order).levels order.side.opposite = (engine.matchOrder order).2.levels order.side.opposite := by
  obtain ⟨quantity, same⟩ := matchOrder_order engine order
  rcases handleOrderNew_cases valid order with ⟨-, matched⟩ | ⟨-, -, position, inserted, -⟩
  · rw [matched]
    exact ⟨rfl, rfl⟩
  · have other := inserted.other
    rw [same] at other
    exact ⟨inserted.trades, other⟩

end FinanceTech.Proofs.MatchingQuantities
