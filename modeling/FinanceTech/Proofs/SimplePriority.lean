import FinanceTech.Proofs.SimplePointers
import Mathlib.Data.List.TakeWhile

/-! The iterator engine walks the crossing levels from the worst price to the
best, so it serves price-time priority exactly when that direction makes no
difference. -/

namespace FinanceTech.Proofs.SimplePriority
open List Library Matching Matching.Simple PriceTime PriceTimeFill ListedLinks ListedRepresentation SimplePointers

/-- The maps start at the worst price of their side. -/
def book (engine : OrderMatchingEngine) : Book :=
  ⟨resting engine.orders .buy engine.buyOrders.reverse, resting engine.orders .sell engine.sellOrders.reverse⟩

/-- The order's trades of non-zero quantity are those of the reference matcher. -/
def Prioritized (grow : Nat → Nat) (engine : OrderMatchingEngine) (order : Order) : Prop :=
  ∃ next recorded, engine.processOrder grow order = some next ∧ next.trades = engine.trades ++ recorded ∧
    executed recorded = (submit (book engine) order).executions

/-- The resting orders an incoming order trades with. -/
def crossed (book : Book) (order : Order) : List Order :=
  (book.side order.side.opposite).filter (crossing order.side order.price)

def listedBook (engine : Listed.OrderMatchingEngine) : Book :=
  ⟨resting engine.orders .buy engine.buyOrders.reverse, resting engine.orders .sell engine.sellOrders.reverse⟩

private theorem listedBook_side (engine : Listed.OrderMatchingEngine) (side : OrderSide) :
    (listedBook engine).side side = resting engine.orders side (engine.levels side).reverse := by cases side <;> rfl

section Listed

variable {engine : Listed.OrderMatchingEngine}

theorem resting_append (orders : Orders) (side : OrderSide) (first second : PriceLevelMap) :
    resting orders side (first ++ second) = resting orders side first ++ resting orders side second := by
  rw [resting, placed_append, map_append]
  rfl

def rows (orders : Orders) (side : OrderSide) (levels : PriceLevelMap) : List (List Order) :=
  levels.map fun entry => (entry.2.map (Placed.mk side entry.1)).map (Placed.read orders)

theorem resting_rows (orders : Orders) (side : OrderSide) (levels : PriceLevelMap) :
    resting orders side levels = (rows orders side levels).flatten := by
  rw [resting, placed, map_flatMap, flatMap_def]
  rfl

private theorem rows_reverse (orders : Orders) (side : OrderSide) (levels : PriceLevelMap) :
    rows orders side levels.reverse = (rows orders side levels).reverse := map_reverse

theorem row_price (valid : Valid engine) {side : OrderSide} {entry : (_ : Price) × PriceOrderList}
    (present : entry ∈ engine.levels side) {order : Order}
    (member : order ∈ (entry.2.map (Placed.mk side entry.1)).map (Placed.read engine.orders)) : order.price = entry.1 := by
  obtain ⟨place, listed, rfl⟩ := mem_map.mp member
  obtain ⟨order, holds⟩ := placed_held valid (mem_flatMap.mpr ⟨entry, present, listed⟩)
  obtain ⟨node, -, rfl⟩ := mem_map.mp listed
  rw [holds.read_eq, holds.price]

private theorem rows_levelled (valid : Valid engine) {side : OrderSide} {levels : PriceLevelMap}
    (sub : levels <+ engine.levels side) : Levelled (rows engine.orders side levels) := by
  have sorted := (valid.sorted side).sublist _ sub
  refine ⟨?_, ?_⟩
  · intro level member first one second two
    obtain ⟨entry, present, rfl⟩ := mem_map.mp member
    rw [row_price valid (sub.subset present) one, row_price valid (sub.subset present) two]
  · refine pairwise_map.mpr (sorted.imp_of_mem ?_)
    intro earlier later present there before first one second two same
    rw [row_price valid (sub.subset present) one, row_price valid (sub.subset there) two] at same
    exact irrefl (r := Simple.before side) later.1 (same ▸ before)

/-- The levels in front of the walk do not cross, so the reference matcher
serves the walked ones in the other direction. -/
theorem reference_executions (valid : Valid engine) (order : Order) :
    (submit (listedBook engine) order).executions = executions order (fill order.side order.price order.quantity
      (rows engine.orders order.side.opposite (walked engine order)).reverse.flatten).fills := by
  let side := order.side.opposite
  let passed := (engine.levels side).takeWhile fun entry => before side entry.1 order.price
  have whole : passed ++ walked engine order = engine.levels side := takeWhile_append_dropWhile
  have apart : ∀ other ∈ resting engine.orders side passed.reverse, crossing order.side order.price other = false := by
    intro other member
    have sub : passed.reverse ⊆ engine.levels side := fun entry present =>
      (takeWhile_sublist _).subset (mem_reverse.mp present)
    obtain ⟨entry, present, price⟩ := resting_price valid sub member
    have earlier := mem_takeWhile_imp (mem_reverse.mp present)
    rw [← Bool.not_eq_true, crossing_iff, not_not, price]
    exact of_decide_eq_true earlier
  have order' : (listedBook engine).side side =
      (rows engine.orders side (walked engine order)).reverse.flatten ++ resting engine.orders side passed.reverse := by
    rw [listedBook_side, ← whole, reverse_append, resting_append, resting_rows engine.orders side (walked engine order).reverse, rows_reverse]
  rw [submit, order', fill_append, fill_uncrossed apart, append_nil]

private theorem crossed_iff (valid : Valid engine) (order other : Order) :
    other ∈ crossed (listedBook engine) order ↔ other ∈ resting engine.orders order.side.opposite (walked engine order) := by
  let side := order.side.opposite
  let passed := (engine.levels side).takeWhile fun entry => before side entry.1 order.price
  have whole : passed ++ walked engine order = engine.levels side := takeWhile_append_dropWhile
  have split : other ∈ (listedBook engine).side side ↔
      other ∈ resting engine.orders side passed ∨ other ∈ resting engine.orders side (walked engine order) := by
    rw [listedBook_side, resting_rows, rows_reverse, mem_flatten_reverse, ← resting_rows, ← whole, resting_append, mem_append]
  rw [crossed, mem_filter, split]
  constructor
  · rintro ⟨member | member, reaches⟩
    · obtain ⟨entry, present, price⟩ := resting_price valid (takeWhile_sublist _).subset member
      have earlier := mem_takeWhile_imp present
      rw [crossing_iff, price] at reaches
      exact absurd (of_decide_eq_true earlier) reaches
    · exact member
  · exact fun member => ⟨.inr member, walked_crosses valid order other member⟩

private theorem handleOrderNew_prioritized_iff (valid : Valid engine) (live : Live ((listedBook engine).bids ++ (listedBook engine).asks))
    (order : Order) : ∃ next recorded, engine.handleOrderNew order = some next ∧ next.trades = engine.trades ++ recorded ∧
      (executed recorded = (submit (listedBook engine) order).executions ↔
        order.quantity = 0 ∨ OnePrice (crossed (listedBook engine) order)) := by
  obtain ⟨taker, middle, next, matched, ran, -, same⟩ := handleOrderNew_matches valid order
  have rested : ∀ other ∈ resting engine.orders order.side.opposite (walked engine order),
      other ∈ (listedBook engine).bids ++ (listedBook engine).asks := by
    intro other member
    have present := mem_filter.mp ((crossed_iff valid order other).mpr member)
    cases side : order.side with
    | buy =>
      rw [side] at present
      exact mem_append_right _ present.1
    | sell =>
      rw [side] at present
      exact mem_append_left _ present.1
  have liveWalked : Live (rows engine.orders order.side.opposite (walked engine order)).flatten := by
    rw [← resting_rows]
    exact fun other member => live other (rested other member)
  have reaches := walked_crosses valid order
  obtain ⟨recorded, traded, filled⟩ := matched.filled (resting_rows engine.orders _ _ ▸ liveWalked)
  have served := filled.executed
  have one : OnePrice (crossed (listedBook engine) order) ↔
      OnePrice (rows engine.orders order.side.opposite (walked engine order)).flatten := by
    simp only [OnePrice, crossed_iff valid order, resting_rows]
  rw [resting_rows] at served reaches
  refine ⟨next, recorded, ran, same.trans traded, ?_⟩
  rw [one, ← executions_reverse_iff (rows_levelled valid (walked_sub engine order).sublist) liveWalked reaches,
    ← reference_executions valid order, ← served]

end Listed

theorem book_follows {first : OrderMatchingEngine} {second : Listed.OrderMatchingEngine} (follows : Follows first second) :
    book first = listedBook second := by
  have buy : first.buyOrders = second.buyOrders := follows.levels .buy
  have sell : first.sellOrders = second.sellOrders := follows.levels .sell
  rw [book, listedBook, follows.orders, buy, sell]

theorem processOrder_prioritized_iff {grow : Nat → Nat} {orders : List Order} {engine : OrderMatchingEngine}
    (reached : OrderMatchingEngine.processOrders grow {} orders = some engine)
    (live : Live ((book engine).bids ++ (book engine).asks)) {order : Order} (new : order.action = .new) :
    Prioritized grow engine order ↔ order.quantity = 0 ∨ OnePrice (crossed (book engine) order) := by
  obtain ⟨second, -, follows, valid⟩ := processOrders_follows reached
  rw [Prioritized, book_follows follows]
  rw [book_follows follows] at live
  obtain ⟨next, recorded, ran, traded, served⟩ := handleOrderNew_prioritized_iff valid live order
  obtain ⟨after, followed, meets⟩ := @handleOrderNew_follows _ _ grow follows _ _ ran
  have logged : after.trades = engine.trades ++ recorded := by rw [meets.trades, traded, follows.trades]
  have processed : engine.processOrder grow order = some after := by rw [OrderMatchingEngine.processOrder, new, followed]
  rw [← served]
  constructor
  · rintro ⟨other, log, went, written, equal⟩
    cases processed.symm.trans went
    have logs : log = recorded := append_cancel_left (written.symm.trans logged)
    exact logs ▸ equal
  · exact fun equal => ⟨after, recorded, processed, logged, equal⟩

theorem processOrder_prioritized_iff_one_level :
    let engine : Option OrderMatchingEngine := OrderMatchingEngine.processOrders growth {} [⟨.buy, .new, 1, 100, 5⟩, ⟨.buy, .new, 2, 99, 5⟩]
    ∃ state, engine = some state ∧
      (Prioritized growth state ⟨.sell, .new, 3, 100, 3⟩ ↔
        (3 : Quantity) = 0 ∨ OnePrice (crossed (book state) ⟨.sell, .new, 3, 100, 3⟩)) :=
  ⟨_, rfl, @processOrder_prioritized_iff growth [⟨.buy, .new, 1, 100, 5⟩, ⟨.buy, .new, 2, 99, 5⟩] _ rfl
    (by unfold Live; decide) ⟨.sell, .new, 3, 100, 3⟩ rfl⟩

/-- Two bids and a sell order that crosses both: the lower bid is hit first. -/
theorem worst_price_first : ∃ engine, OrderMatchingEngine.processOrders growth {}
      [⟨.buy, .new, 1, 100, 5⟩, ⟨.buy, .new, 2, 101, 5⟩] = some engine ∧
    Live ((book engine).bids ++ (book engine).asks) ∧ ¬ Prioritized growth engine ⟨.sell, .new, 3, 100, 3⟩ := by
  refine ⟨_, rfl, by unfold Live; decide, ?_⟩
  rintro ⟨next, recorded, ran, traded, equal⟩
  cases Option.some.inj ran
  cases traded
  exact absurd equal (by decide)

end FinanceTech.Proofs.SimplePriority
