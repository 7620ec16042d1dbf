import FinanceTech.PriceTime

/-! Rules for greedy filling: it composes over a concatenation, and it leaves
alone what does not cross and what comes after the order is used up. -/

namespace FinanceTech.Proofs.PriceTimeFill
open List Library Matching PriceTime

theorem book_eq {book other : Book} (side : OrderSide) (own : book.side side = other.side side)
    (facing : book.side side.opposite = other.side side.opposite) : book = other := by
  obtain ⟨bids, asks⟩ := book
  obtain ⟨others, opposed⟩ := other
  cases side <;> simp_all [Book.side, OrderSide.opposite]

@[simp] theorem withSide_side (book : Book) (orders : List Order) (side : OrderSide) :
    (book.withSide orders side).side side = orders := by cases side <;> rfl

@[simp] theorem withSide_opposite (book : Book) (orders : List Order) (side : OrderSide) :
    (book.withSide orders side).side side.opposite = book.side side.opposite := by cases side <;> rfl

@[simp] theorem withSide_own (book : Book) (orders : List Order) (side : OrderSide) :
    (book.withSide orders side.opposite).side side = book.side side := by cases side <;> rfl

theorem mem_ids_iff {book : Book} (side : OrderSide) {id : OrderID} : id ∈ book.ids ↔
    id ∈ (book.side side).map Order.orderId ∨ id ∈ (book.side side.opposite).map Order.orderId := by
  rw [Book.ids, map_append, mem_append]
  cases side with
  | buy => exact Iff.rfl
  | sell => exact Or.comm

variable {side : OrderSide} {price : Price}

theorem min_eq (first second : Quantity) : min first second = if first ≤ second then first else second := rfl

theorem fill_append (quantity : Quantity) (first second : List Order) :
    fill side price quantity (first ++ second) =
      { fills := (fill side price quantity first).fills ++
          (fill side price (fill side price quantity first).left second).fills
        kept := (fill side price quantity first).kept ++
          (fill side price (fill side price quantity first).left second).kept
        left := (fill side price (fill side price quantity first).left second).left } := by
  induction first generalizing quantity with
  | nil => rfl
  | cons resting rest ih =>
    rw [cons_append, fill, fill]
    split
    · simp only [ih]
      split <;> rfl
    · simp only [ih, cons_append]

theorem fill_uncrossed {orders : List Order} (apart : ∀ resting ∈ orders, crossing side price resting = false)
    (quantity : Quantity) : fill side price quantity orders = { kept := orders, left := quantity } := by
  induction orders with
  | nil => rfl
  | cons resting rest ih =>
    obtain ⟨first, others⟩ := forall_mem_cons.mp apart
    rw [fill, if_neg (by simp [first]), ih others]

/-- With nothing left to trade, only empty fills are made and every live order
is kept. -/
theorem fill_zero {orders : List Order} (live : ∀ resting ∈ orders, 0 < resting.quantity) :
    (fill side price 0 orders).kept = orders ∧ (fill side price 0 orders).left = 0 ∧
      (fill side price 0 orders).fills.filter (fun fill => fill.2 ≠ 0) = [] := by
  induction orders with
  | nil => exact ⟨rfl, rfl, rfl⟩
  | cons resting rest ih =>
    obtain ⟨first, others⟩ := forall_mem_cons.mp live
    obtain ⟨kept, left, fills⟩ := ih others
    have traded : min resting.quantity 0 = 0 := by
      rw [min_eq]
      split
      next below => exact UInt64.le_antisymm below UInt64.zero_le
      next => rfl
    have wants : (0 : Quantity) ≠ resting.quantity := (UInt64.ne_of_lt first)
    rw [fill]
    split
    · simp only [traded, UInt64.sub_zero, if_neg wants, kept, left, true_and]
      rw [filter_cons_of_neg (by simp)]
      exact fills
    · simp only [kept, left, true_and]
      exact fills

theorem fill_kept (quantity : Quantity) {orders : List Order} {kept : Order} (member : kept ∈ (fill side price quantity orders).kept) :
    ∃ resting ∈ orders, kept = { resting with quantity := kept.quantity } ∧ kept.quantity ≤ resting.quantity ∧
      (0 < resting.quantity → 0 < kept.quantity) := by
  induction orders generalizing quantity with
  | nil => cases member
  | cons resting rest ih =>
    have later : ∀ left, kept ∈ (fill side price left rest).kept → ∃ other ∈ resting :: rest,
        kept = { other with quantity := kept.quantity } ∧ kept.quantity ≤ other.quantity ∧ (0 < other.quantity → 0 < kept.quantity) := by
      intro left inside
      obtain ⟨other, present, same, less, wants⟩ := ih left inside
      exact ⟨other, mem_cons_of_mem _ present, same, less, wants⟩
    rw [fill] at member
    split at member
    · dsimp only at member
      split at member
      next => exact later _ member
      next partly =>
        rcases mem_cons.mp member with rfl | inside
        · have less : min resting.quantity quantity ≤ resting.quantity := by
            rw [min_eq]
            split
            next => exact UInt64.le_refl _
            next larger => exact UInt64.le_of_lt (UInt64.not_le.mp larger)
          refine ⟨resting, mem_cons_self, rfl, UInt64.sub_le less, fun _ => ?_⟩
          have strict : min resting.quantity quantity < resting.quantity := UInt64.lt_of_le_of_ne less partly
          simp only [UInt64.lt_iff_toNat_lt, UInt64.toNat_sub_of_le _ _ less, UInt64.toNat_zero] at strict ⊢
          omega
        · exact later _ inside
    · rcases mem_cons.mp member with rfl | inside
      · exact ⟨kept, mem_cons_self, rfl, UInt64.le_refl _, id⟩
      · exact later _ inside

private theorem fill_left (quantity : Quantity) (orders : List Order) : (fill side price quantity orders).left ≤ quantity := by
  induction orders generalizing quantity with
  | nil => exact UInt64.le_refl _
  | cons resting rest ih =>
    rw [fill]
    split
    · have less : min resting.quantity quantity ≤ quantity := by
        rw [min_eq]
        split
        next below => exact below
        next => exact UInt64.le_refl _
      exact UInt64.le_trans (ih _) (UInt64.sub_le less)
    · exact ih quantity

theorem executions_append (taker : Order) (first second : List (Order × Quantity)) :
    executions taker (first ++ second) = executions taker first ++ executions taker second := by
  rw [executions, filter_append, map_append]
  rfl

theorem executed_append (first second : List Trade) : executed (first ++ second) = executed first ++ executed second := by
  rw [executed, filter_append, map_append]
  rfl

theorem executions_fill_zero {orders : List Order} (live : ∀ resting ∈ orders, 0 < resting.quantity) (taker : Order) :
    executions taker (fill side price 0 orders).fills = [] := by
  rw [executions, (fill_zero live).2.2, map_nil]

private theorem execution_requantified (taker : Order) (quantity : Quantity) (fills : List (Order × Quantity)) :
    executions { taker with quantity } fills = executions taker fills := rfl

/-- The trade of one turn is the execution of its fill, unless it is empty. -/
private theorem between_executed (taker : Order) {matched : Order} (small : matched.quantity < 2 ^ 32) :
    executed [Trade.between taker matched] = executions taker [(matched, min matched.quantity taker.quantity)] := by
  have bound : min matched.quantity taker.quantity < 2 ^ 32 := by
    rw [min_eq]
    split
    next => exact small
    next below => exact UInt64.lt_trans (UInt64.not_le.mp below) small
  by_cases empty : min matched.quantity taker.quantity = 0
  · cases side : taker.side <;>
      simp [executed, executions, Trade.between, Trade.setQuantity, Trade.setBuyOrder, Trade.setSellOrder, empty, side]
  · have narrow : (min matched.quantity taker.quantity).toUInt32 ≠ 0 := (narrow_eq_zero bound).not.mpr empty
    cases side : taker.side <;>
      simp [executed, executions, execution, Execution.ofTrade, Trade.between, Trade.setQuantity, Trade.setBuyOrder,
        Trade.setSellOrder, empty, narrow, widen_narrow bound, side]

/-- Orders that the engines can fill: something is wanted, and a trade can
carry it. -/
def Live (orders : List Order) : Prop := ∀ order ∈ orders, 0 < order.quantity ∧ order.quantity < 2 ^ 32

theorem Live.positive {orders : List Order} (live : Live orders) : ∀ order ∈ orders, 0 < order.quantity :=
  fun order member => (live order member).1

/-- A loop that left the taker this quantity and recorded these trades has
filled these orders. -/
structure Filled (taker : Order) (orders : List Order) (left : Quantity) (recorded : List Trade) : Prop where
  left : left = (fill taker.side taker.price taker.quantity orders).left
  executed : executed recorded = executions taker (fill taker.side taker.price taker.quantity orders).fills

namespace Filled

variable {taker : Order} {orders first second : List Order} {middle left : Quantity} {recorded others : List Trade}

theorem stop (live : Live orders)
    (stops : taker.quantity = 0 ∨ ∀ order ∈ orders, crossing taker.side taker.price order = false) :
    Filled taker orders taker.quantity [] := by
  rcases stops with empty | apart
  · obtain ⟨-, left, -⟩ := @fill_zero taker.side taker.price orders live.positive
    refine ⟨?_, ?_⟩
    · rw [empty, left]
    · rw [empty, executions_fill_zero live.positive]
      rfl
  · have none := fill_uncrossed apart taker.quantity
    exact ⟨by rw [none], by rw [none]; rfl⟩

theorem trans (one : Filled taker first middle recorded) (two : Filled { taker with quantity := middle } second left others) :
    Filled taker (first ++ second) left (recorded ++ others) := by
  have rest := two.executed
  rw [execution_requantified, one.left] at rest
  refine ⟨?_, ?_⟩
  · rw [fill_append, ← one.left]
    exact two.left
  · rw [fill_append, executed_append, executions_append, one.executed, rest]

theorem single {matched : Order} (small : matched.quantity < 2 ^ 32)
    (reaches : crossing taker.side taker.price matched = true) :
    Filled taker [matched] (taker.quantity - min matched.quantity taker.quantity) [Trade.between taker matched] := by
  have alone : fill taker.side taker.price taker.quantity [matched] =
      { fills := [(matched, min matched.quantity taker.quantity)]
        kept := if min matched.quantity taker.quantity = matched.quantity then []
          else [{ matched with quantity := matched.quantity - min matched.quantity taker.quantity }]
        left := taker.quantity - min matched.quantity taker.quantity } := by
    rw [fill, if_pos reaches]
    rfl
  exact ⟨by rw [alone], by rw [between_executed taker small, alone]⟩

theorem whole {matched : Order} (small : matched.quantity < 2 ^ 32)
    (reaches : crossing taker.side taker.price matched = true) (fits : matched.quantity ≤ taker.quantity) :
    Filled taker [matched] (taker.quantity - matched.quantity) [Trade.between taker matched] := by
  have turn := single small reaches
  rwa [min_eq, if_pos fits] at turn

theorem part {matched : Order} (small : matched.quantity < 2 ^ 32)
    (reaches : crossing taker.side taker.price matched = true) (larger : ¬ matched.quantity ≤ taker.quantity) :
    Filled taker [matched] 0 [Trade.between taker matched] := by
  have turn := single small reaches
  rwa [min_eq, if_neg larger, UInt64.sub_self] at turn

end Filled

/-- Both sides hold orders the engine can fill. -/
def LiveBook (book : Book) : Prop := ∀ side, Live (book.side side)

/-- A quantity between one and the largest a trade can carry. -/
def InRange (quantity : Quantity) : Prop := 0 < quantity ∧ quantity < 2 ^ 32

instance (quantity : Quantity) : Decidable (InRange quantity) := inferInstanceAs (Decidable (_ ∧ _))

private theorem live_of_sides {book : Book} (side : OrderSide) (own : Live (book.side side)) (other : Live (book.side side.opposite)) :
    LiveBook book := by
  intro wanted
  cases side <;> cases wanted <;> assumption

private theorem live_withSide {book : Book} {orders : List Order} {side : OrderSide} (live : LiveBook book) (fresh : Live orders) :
    LiveBook (book.withSide orders side) := by
  apply live_of_sides side
  · rw [withSide_side]
    exact fresh
  · rw [withSide_opposite]
    exact live side.opposite

private theorem accept_live {book : Book} {order : Order} (live : LiveBook book) (small : order.quantity < 2 ^ 32) :
    LiveBook (accept book order).2 := by
  have kept : Live (fill order.side order.price order.quantity (book.side order.side.opposite)).kept := by
    intro other member
    obtain ⟨resting, present, -, less, wants⟩ := fill_kept order.quantity member
    obtain ⟨positive, bound⟩ := live _ resting present
    exact ⟨wants positive, UInt64.lt_of_le_of_lt less bound⟩
  have matched := @live_withSide book _ order.side.opposite live kept
  rw [accept]
  split
  next => exact matched
  next stored =>
    apply live_withSide matched
    intro other member
    rcases (mem_orderedInsert _).mp member with rfl | member
    · exact ⟨UInt64.pos_iff_ne_zero.mpr (not_or.mp stored).1, UInt64.lt_of_le_of_lt (fill_left _ _) small⟩
    · exact matched order.side other member

theorem withdraw_live {book : Book} (live : LiveBook book) (order : Order) : LiveBook (withdraw book order) :=
  live_withSide live fun other member => live _ other (mem_filter.mp member).1

private theorem amend_live {book : Book} {order : Order} (live : LiveBook book) (range : InRange order.quantity) :
    LiveBook (amend book order).2 := by
  unfold amend
  split
  · exact live
  · split
    · apply live_withSide live
      intro other member
      obtain ⟨resting, present, rfl⟩ := mem_map.mp member
      split
      · exact range
      · exact live _ resting present
    · exact accept_live (withdraw_live live order) range.2

theorem process_live {book : Book} {order : Order} (live : LiveBook book) (range : InRange order.quantity) :
    LiveBook (process book order).2 := by
  unfold process
  cases order.action with
  | new => exact accept_live live range.2
  | cancel => exact withdraw_live live order
  | amend => exact amend_live live range
  | recovery | recoveryEnd => exact live

/-- Levels whose orders share a price, each level a price of its own. -/
structure Levelled (levels : List (List Order)) : Prop where
  shared : ∀ level ∈ levels, ∀ first ∈ level, ∀ second ∈ level, first.price = second.price
  apart : levels.Pairwise fun level later => ∀ first ∈ level, ∀ second ∈ later, first.price ≠ second.price

theorem Levelled.tail {level : List Order} {rest : List (List Order)} (levelled : Levelled (level :: rest)) : Levelled rest :=
  ⟨fun other member => levelled.shared other (mem_cons_of_mem _ member), levelled.apart.of_cons⟩

def OnePrice (orders : List Order) : Prop := ∀ first ∈ orders, ∀ second ∈ orders, first.price = second.price

theorem mem_flatten_reverse {levels : List (List Order)} {order : Order} :
    order ∈ levels.reverse.flatten ↔ order ∈ levels.flatten := by simp

private theorem flatten_reverse_cons (level : List Order) (rest : List (List Order)) :
    (level :: rest).reverse.flatten = rest.reverse.flatten ++ level := by simp

/-- When all orders share a price, at most one level holds any. -/
private theorem Levelled.flatten_reverse {levels : List (List Order)} (levelled : Levelled levels) (one : OnePrice levels.flatten) :
    levels.reverse.flatten = levels.flatten := by
  induction levels with
  | nil => rfl
  | cons level rest ih =>
    have others : OnePrice rest.flatten := fun first member second present =>
      one first (mem_append_right _ member) second (mem_append_right _ present)
    rw [flatten_reverse_cons, flatten_cons]
    cases level with
    | nil => rw [append_nil, nil_append, ih levelled.tail others]
    | cons order orders =>
      have none : rest.flatten = [] := by
        apply eq_nil_iff_forall_not_mem.mpr
        intro other member
        obtain ⟨later, present, inside⟩ := mem_flatten.mp member
        exact rel_of_pairwise_cons levelled.apart present order mem_cons_self other inside
          (one order (mem_append_left _ mem_cons_self) other (mem_append_right _ member))
      have flipped : rest.reverse.flatten = [] := by
        apply eq_nil_iff_forall_not_mem.mpr
        intro other member
        rw [mem_flatten_reverse, none] at member
        cases member
      rw [none, flipped, append_nil, nil_append]

/-- When both directions start at the same price, there is only that one. -/
private theorem Levelled.onePrice_of_heads {levels : List (List Order)} (levelled : Levelled levels)
    (heads : ∀ first ∈ levels.flatten.head?, ∀ second ∈ levels.reverse.flatten.head?, first.price = second.price) :
    OnePrice levels.flatten := by
  induction levels with
  | nil => simp [OnePrice]
  | cons level rest ih =>
    rw [flatten_reverse_cons, flatten_cons] at heads
    rw [flatten_cons]
    cases level with
    | nil =>
      rw [append_nil, nil_append] at heads
      exact ih levelled.tail heads
    | cons order orders =>
      have none : rest.flatten = [] := by
        apply eq_nil_iff_forall_not_mem.mpr
        intro other member
        cases flipped : rest.reverse.flatten with
        | nil =>
          rw [← mem_flatten_reverse, flipped] at member
          cases member
        | cons head more =>
          have present : head ∈ rest.flatten := mem_flatten_reverse.mp (flipped ▸ mem_cons_self)
          obtain ⟨later, inside, listed⟩ := mem_flatten.mp present
          rw [flipped] at heads
          exact rel_of_pairwise_cons levelled.apart inside order mem_cons_self head listed (heads order rfl head rfl)
      rw [none, append_nil]
      exact levelled.shared _ mem_cons_self

private theorem execution_price {taker first second : Order} {traded other : Quantity}
    (same : execution taker (first, traded) = execution taker (second, other)) : first.price = second.price := by
  cases side : taker.side with
  | buy =>
    simp only [execution, side] at same
    exact congrArg (fun execution => execution.sell.price) same
  | sell =>
    simp only [execution, side] at same
    exact congrArg (fun execution => execution.buy.price) same

/-- The first execution of a taker that wants something is with the first order
it reaches. -/
private theorem executions_head {taker : Order} {orders : List Order} (wants : taker.quantity ≠ 0)
    (live : Live orders) (reaches : ∀ order ∈ orders, crossing taker.side taker.price order = true) :
    ∀ order ∈ orders.head?, ∃ traded,
      (executions taker (fill taker.side taker.price taker.quantity orders).fills).head? = some (execution taker (order, traded)) := by
  cases orders with
  | nil => simp
  | cons order rest =>
    intro head same
    cases same
    have traded : min order.quantity taker.quantity ≠ 0 := by
      rw [min_eq]
      split
      next => exact UInt64.pos_iff_ne_zero.mp (live order mem_cons_self).1
      next => exact wants
    refine ⟨min order.quantity taker.quantity, ?_⟩
    rw [fill, if_pos (reaches order mem_cons_self), executions, filter_cons_of_pos (by simpa using traded)]
    rfl

/-- Serving the levels in either direction comes to the same executions only
for a taker that wants nothing and for orders of a single price. -/
theorem executions_reverse_iff {taker : Order} {levels : List (List Order)} (levelled : Levelled levels)
    (live : Live levels.flatten) (reaches : ∀ order ∈ levels.flatten, crossing taker.side taker.price order = true) :
    executions taker (fill taker.side taker.price taker.quantity levels.flatten).fills =
        executions taker (fill taker.side taker.price taker.quantity levels.reverse.flatten).fills ↔
      taker.quantity = 0 ∨ OnePrice levels.flatten := by
  have flippedLive : Live levels.reverse.flatten := fun order member => live order (mem_flatten_reverse.mp member)
  constructor
  · intro same
    by_cases wants : taker.quantity = 0
    · exact .inl wants
    · right
      apply levelled.onePrice_of_heads
      intro first head second other
      obtain ⟨one, left⟩ := executions_head wants live reaches first head
      obtain ⟨two, right⟩ := executions_head wants flippedLive
        (fun order member => reaches order (mem_flatten_reverse.mp member)) second other
      rw [same, right] at left
      exact (execution_price (Option.some.inj left)).symm
  · rintro (empty | one)
    · rw [empty, executions_fill_zero live.positive, executions_fill_zero flippedLive.positive]
    · rw [levelled.flatten_reverse one]

/-- An order joins the back of its price: behind everything served no later and
in front of everything served after it. -/
theorem orderedInsert_middle {order : Order} {front back : List Order}
    (behind : ∀ resting ∈ front, ¬ earlier side order resting) (ahead : ∀ resting ∈ back, earlier side order resting) :
    orderedInsert (earlier side) order (front ++ back) = front ++ order :: back := by
  induction front with
  | nil =>
    cases back with
    | nil => rfl
    | cons resting rest => rw [nil_append, orderedInsert, if_pos (ahead resting mem_cons_self), nil_append]
  | cons resting rest ih =>
    obtain ⟨first, others⟩ := forall_mem_cons.mp behind
    rw [cons_append, orderedInsert, if_neg first, ih others, cons_append]

end FinanceTech.Proofs.PriceTimeFill
