import FinanceTech.Proofs.PriceTimeFill

/-! Two runs of the reference matcher, one with a resting order that no execution
involves and one without it. They trade the same, and their books differ by that
order alone, so cancelling it makes them equal. -/

namespace FinanceTech.Proofs.UntouchedOrder
open List Library Matching PriceTime PriceTimeFill

def Among (x : Order) (longer shorter : List Order) : Prop :=
  ∃ front back, longer = front ++ x :: back ∧ shorter = front ++ back ∧
    (∀ resting ∈ front ++ back, resting.orderId ≠ x.orderId) ∧ ∀ resting ∈ back, ¬ earlier x.side resting x

structure Beside (x : Order) (holding lacking : Book) : Prop where
  own : Among x (holding.side x.side) (lacking.side x.side)
  other : holding.side x.side.opposite = lacking.side x.side.opposite

variable {x order : Order} {holding lacking : Book} {longer shorter front back : List Order}

private theorem earlier_of_price {side : OrderSide} {first second : Order} (same : first.price = second.price) :
    earlier side first x ↔ earlier side second x := by
  cases side <;> simp only [earlier, same]

private theorem earlier_trans {side : OrderSide} {first second : Order} (before : earlier side first x) (behind : ¬ earlier side second x) :
    earlier side first second := by
  cases side with
  | buy => exact UInt64.lt_of_le_of_lt (UInt64.not_lt.mp behind) before
  | sell => exact UInt64.lt_of_lt_of_le before (UInt64.not_lt.mp behind)

private theorem earlier_asymm {side : OrderSide} {first second : Order} (before : earlier side first second) : ¬ earlier side second first := by
  cases side with
  | buy => exact UInt64.lt_asymm before
  | sell => exact UInt64.lt_asymm before

/-- A filling that does not reach an order, or has nothing left for it, passes
it by. -/
theorem fill_past {taker : Order} {quantity : Quantity} (live : Live (x :: back))
    (passes : quantity = 0 ∨ crossing taker.side taker.price x = false) :
    (fill taker.side taker.price quantity (x :: back)).kept = x :: (fill taker.side taker.price quantity back).kept ∧
      (fill taker.side taker.price quantity (x :: back)).left = (fill taker.side taker.price quantity back).left ∧
      executions taker (fill taker.side taker.price quantity (x :: back)).fills =
        executions taker (fill taker.side taker.price quantity back).fills := by
  rcases passes with rfl | outside
  · have behind : Live back := fun resting member => live resting (mem_cons_of_mem _ member)
    obtain ⟨kept, left, -⟩ := @fill_zero taker.side taker.price _ live.positive
    obtain ⟨others, rest, -⟩ := @fill_zero taker.side taker.price _ behind.positive
    rw [kept, left, others, rest, executions_fill_zero live.positive, executions_fill_zero behind.positive]
    exact ⟨rfl, rfl, rfl⟩
  · rw [fill, if_neg (by simp [outside])]
    exact ⟨rfl, rfl, rfl⟩

/-- An order that a filling reaches with something left takes part in an
execution. -/
theorem involved {taker : Order} (live : 0 < x.quantity)
    (wants : (fill taker.side taker.price taker.quantity front).left ≠ 0)
    (reaches : crossing taker.side taker.price x = true) :
    ∃ execution ∈ executions taker (fill taker.side taker.price taker.quantity (front ++ x :: back)).fills,
      execution.Involves x.orderId := by
  have traded : min x.quantity (fill taker.side taker.price taker.quantity front).left ≠ 0 := by
    rw [min_eq]
    split
    next => exact UInt64.pos_iff_ne_zero.mp live
    next => exact wants
  refine ⟨execution taker (x, min x.quantity (fill taker.side taker.price taker.quantity front).left), ?_, ?_⟩
  · rw [fill_append, executions_append, mem_append]
    right
    rw [fill, if_pos reaches, executions, filter_cons_of_pos (by simpa using traded)]
    exact mem_cons_self
  · unfold execution Execution.Involves
    cases taker.side with
    | buy => exact .inr rfl
    | sell => exact .inl rfl

theorem Among.fill (among : Among x longer shorter) (live : Live longer) {taker : Order}
    (untouched : ∀ execution ∈ executions taker (fill taker.side taker.price taker.quantity longer).fills,
      ¬ execution.Involves x.orderId) :
    Among x (PriceTime.fill taker.side taker.price taker.quantity longer).kept
        (PriceTime.fill taker.side taker.price taker.quantity shorter).kept ∧
      (PriceTime.fill taker.side taker.price taker.quantity longer).left =
        (PriceTime.fill taker.side taker.price taker.quantity shorter).left ∧
      executions taker (PriceTime.fill taker.side taker.price taker.quantity longer).fills =
        executions taker (PriceTime.fill taker.side taker.price taker.quantity shorter).fills := by
  obtain ⟨front, back, rfl, rfl, ids, later⟩ := among
  have tail : Live (x :: back) := fun resting member => live resting (mem_append_right _ member)
  have passes : (PriceTime.fill taker.side taker.price taker.quantity front).left = 0 ∨
      crossing taker.side taker.price x = false := by
    by_contra reached
    obtain ⟨wants, reaches⟩ := not_or.mp reached
    obtain ⟨execution, recorded, involves⟩ := @involved x front back taker (tail x mem_cons_self).1 wants
      (Bool.of_not_eq_false reaches)
    exact untouched execution recorded involves
  obtain ⟨kept, left, same⟩ := fill_past tail passes
  rw [fill_append, fill_append]
  refine ⟨⟨_, _, congrArg (_ ++ ·) kept, rfl, ?_, ?_⟩, left, ?_⟩
  · intro resting member
    have origin : ∃ other ∈ front ++ back, resting = { other with quantity := resting.quantity } := by
      rcases mem_append.mp member with inside | inside
      · obtain ⟨other, present, equal, -⟩ := fill_kept _ inside
        exact ⟨other, mem_append_left _ present, equal⟩
      · obtain ⟨other, present, equal, -⟩ := fill_kept _ inside
        exact ⟨other, mem_append_right _ present, equal⟩
    obtain ⟨other, present, equal⟩ := origin
    rw [equal]
    exact ids other present
  · intro resting member
    obtain ⟨other, present, equal, -⟩ := fill_kept _ member
    rw [equal]
    exact mt (@earlier_of_price x x.side { other with quantity := resting.quantity } other rfl).mp (later other present)
  · rw [executions_append, executions_append, same]

theorem Among.orderedInsert (among : Among x longer shorter) {stored : Order} (id : stored.orderId ≠ x.orderId) :
    Among x (List.orderedInsert (earlier x.side) stored longer) (List.orderedInsert (earlier x.side) stored shorter) := by
  obtain ⟨front, back, rfl, rfl, ids, later⟩ := among
  induction front with
  | nil =>
    by_cases before : earlier x.side stored x
    · have first : List.orderedInsert (earlier x.side) stored back = stored :: back := by
        cases back with
        | nil => rfl
        | cons head rest =>
          have ahead : earlier x.side stored head := earlier_trans before (later head mem_cons_self)
          rw [List.orderedInsert, if_pos ahead]
      refine ⟨[stored], back, ?_, first, ?_, later⟩
      · rw [nil_append, List.orderedInsert, if_pos before]
        rfl
      · exact forall_mem_cons.mpr ⟨id, ids⟩
    · refine ⟨[], List.orderedInsert (earlier x.side) stored back, ?_, rfl, ?_, ?_⟩
      · rw [nil_append, List.orderedInsert, if_neg before, nil_append]
      · intro resting member
        rcases (mem_orderedInsert _).mp member with rfl | inside
        · exact id
        · exact ids resting inside
      · intro resting member
        rcases (mem_orderedInsert _).mp member with rfl | inside
        · exact before
        · exact later resting inside
  | cons head rest ih =>
    obtain ⟨named, others⟩ := forall_mem_cons.mp ids
    by_cases before : earlier x.side stored head
    · refine ⟨stored :: head :: rest, back, ?_, ?_, ?_, later⟩
      · rw [cons_append, List.orderedInsert, if_pos before]
        rfl
      · rw [cons_append, List.orderedInsert, if_pos before]
        rfl
      · exact forall_mem_cons.mpr ⟨id, ids⟩
    · obtain ⟨first, last, long, short, apart, behind⟩ := ih others
      refine ⟨head :: first, last, ?_, ?_, forall_mem_cons.mpr ⟨named, apart⟩, behind⟩
      · rw [cons_append, List.orderedInsert, if_neg before, long]
        rfl
      · rw [cons_append, List.orderedInsert, if_neg before, short]
        rfl

theorem Among.filter (among : Among x longer shorter) {id : OrderID} (different : id ≠ x.orderId) :
    Among x (longer.filter fun resting => resting.orderId ≠ id) (shorter.filter fun resting => resting.orderId ≠ id) := by
  obtain ⟨front, back, rfl, rfl, ids, later⟩ := among
  refine ⟨front.filter fun resting => resting.orderId ≠ id, back.filter fun resting => resting.orderId ≠ id, ?_, ?_, ?_, ?_⟩
  · rw [filter_append, filter_cons_of_pos (by simpa using different.symm)]
  · rw [filter_append]
  · rw [← filter_append]
    exact fun resting member => ids resting (mem_filter.mp member).1
  · exact fun resting member => later resting (mem_filter.mp member).1

/-- Writing to the orders of another id, neither their id nor their price. -/
theorem Among.map (among : Among x longer shorter) {change : Order → Order} (fixed : change x = x)
    (same : ∀ resting, (change resting).orderId = resting.orderId ∧ (change resting).price = resting.price) :
    Among x (longer.map change) (shorter.map change) := by
  obtain ⟨front, back, rfl, rfl, ids, later⟩ := among
  refine ⟨front.map change, back.map change, ?_, map_append, ?_, ?_⟩
  · rw [map_append, map_cons, fixed]
  · intro resting member
    rw [← map_append] at member
    obtain ⟨other, present, rfl⟩ := mem_map.mp member
    rw [(same other).1]
    exact ids other present
  · intro resting member
    obtain ⟨other, present, rfl⟩ := mem_map.mp member
    exact mt (earlier_of_price (same other).2).mp (later other present)

theorem Among.find? (among : Among x longer shorter) {id : OrderID} (different : id ≠ x.orderId) :
    longer.find? (fun resting => resting.orderId = id) = shorter.find? (fun resting => resting.orderId = id) := by
  obtain ⟨front, back, rfl, rfl, -, -⟩ := among
  have skipped : decide (x.orderId = id) = false := decide_eq_false different.symm
  rw [find?_append, find?_append, find?_cons, skipped]

theorem Among.withdraw (among : Among x longer shorter) : longer.filter (fun resting => resting.orderId ≠ x.orderId) = shorter := by
  obtain ⟨front, back, rfl, rfl, ids, -⟩ := among
  rw [filter_append, filter_cons_of_neg (by simp), ← filter_append]
  apply filter_eq_self.mpr
  intro resting member
  simpa using ids resting member

theorem Among.mem (among : Among x longer shorter) {id : OrderID} (different : id ≠ x.orderId) :
    id ∈ longer.map Order.orderId ↔ id ∈ shorter.map Order.orderId := by
  obtain ⟨front, back, rfl, rfl, -, -⟩ := among
  simp only [map_append, map_cons, mem_append, mem_cons, different, false_or]

theorem Beside.withOwn (beside : Beside x holding lacking) (among : Among x longer shorter) :
    Beside x (holding.withSide longer x.side) (lacking.withSide shorter x.side) := by
  refine ⟨?_, ?_⟩
  · rw [withSide_side, withSide_side]
    exact among
  · rw [withSide_opposite, withSide_opposite]
    exact beside.other

theorem Beside.withOther (beside : Beside x holding lacking) (orders : List Order) :
    Beside x (holding.withSide orders x.side.opposite) (lacking.withSide orders x.side.opposite) := by
  refine ⟨?_, ?_⟩
  · rw [withSide_own, withSide_own]
    exact beside.own
  · rw [withSide_side, withSide_side]

theorem Beside.ids (beside : Beside x holding lacking) {id : OrderID} (different : id ≠ x.orderId) :
    id ∈ holding.ids ↔ id ∈ lacking.ids := by
  rw [mem_ids_iff x.side, mem_ids_iff x.side, beside.other, beside.own.mem different]

theorem same_or_opposite (first second : OrderSide) : first = second ∨ first = second.opposite := by
  cases first <;> cases second <;> simp [OrderSide.opposite]

/-- Both books store an order, on either side, at its own place. -/
theorem Beside.store (beside : Beside x holding lacking) (different : order.orderId ≠ x.orderId) :
    Beside x (holding.withSide (List.orderedInsert (earlier order.side) order (holding.side order.side)) order.side)
      (lacking.withSide (List.orderedInsert (earlier order.side) order (lacking.side order.side)) order.side) := by
  rcases same_or_opposite order.side x.side with own | other
  · rw [own]
    exact beside.withOwn (beside.own.orderedInsert different)
  · rw [other, beside.other]
    exact beside.withOther _

private theorem accept_beside (beside : Beside x holding lacking) (live : Live (holding.side x.side)) (different : order.orderId ≠ x.orderId)
    (untouched : ∀ execution ∈ (accept holding order).1, ¬ execution.Involves x.orderId) :
    (accept holding order).1 = (accept lacking order).1 ∧ Beside x (accept holding order).2 (accept lacking order).2 := by
  unfold accept at untouched ⊢
  have stored : ∀ {first second : Book} {left other : Quantity}, Beside x first second → left = other →
      Beside x
        (if left = 0 ∨ order.orderId ∈ first.ids then first
          else first.withSide (List.orderedInsert (earlier order.side) { order with quantity := left }
            (first.side order.side)) order.side)
        (if other = 0 ∨ order.orderId ∈ second.ids then second
          else second.withSide (List.orderedInsert (earlier order.side) { order with quantity := other }
            (second.side order.side)) order.side) := by
    rintro first second left - matched rfl
    simp only [matched.ids different]
    split
    · exact matched
    · exact @Beside.store x { order with quantity := left } first second matched different
  rcases same_or_opposite order.side x.side with own | other
  · have facing : holding.side order.side.opposite = lacking.side order.side.opposite := by
      rw [own]
      exact beside.other
    simp only [facing]
    refine ⟨trivial, stored ?_ rfl⟩
    rw [own]
    exact beside.withOther _
  · have facing : order.side.opposite = x.side := by
      rw [other]
      cases x.side <;> rfl
    simp only [facing] at untouched ⊢
    obtain ⟨among, left, same⟩ := beside.own.fill live untouched
    exact ⟨same, stored (beside.withOwn among) left⟩

private theorem withdraw_beside (beside : Beside x holding lacking) (different : order.orderId ≠ x.orderId) :
    Beside x (withdraw holding order) (withdraw lacking order) := by
  unfold withdraw
  rcases same_or_opposite order.side x.side with own | other
  · rw [own]
    exact beside.withOwn (beside.own.filter different)
  · rw [other, beside.other]
    exact beside.withOther _

private theorem requantify_beside (beside : Beside x holding lacking) (different : order.orderId ≠ x.orderId) :
    Beside x (requantify holding order) (requantify lacking order) := by
  unfold requantify
  rcases same_or_opposite order.side x.side with own | other
  · rw [own]
    refine beside.withOwn (beside.own.map (if_neg different.symm) fun resting => ?_)
    split <;> exact ⟨rfl, rfl⟩
  · rw [other, beside.other]
    exact beside.withOther _

private theorem find?_beside (beside : Beside x holding lacking) (different : order.orderId ≠ x.orderId) :
    (holding.side order.side).find? (fun resting => resting.orderId = order.orderId) =
      (lacking.side order.side).find? (fun resting => resting.orderId = order.orderId) := by
  rcases same_or_opposite order.side x.side with own | other
  · rw [own]
    exact beside.own.find? different
  · rw [other, beside.other]

private theorem amend_beside (beside : Beside x holding lacking) (live : LiveBook holding) (different : order.orderId ≠ x.orderId)
    (untouched : ∀ execution ∈ (amend holding order).1, ¬ execution.Involves x.orderId) :
    (amend holding order).1 = (amend lacking order).1 ∧ Beside x (amend holding order).2 (amend lacking order).2 := by
  unfold amend at untouched ⊢
  rw [find?_beside beside different] at untouched ⊢
  cases found : (lacking.side order.side).find? fun resting => resting.orderId = order.orderId with
  | none => exact ⟨rfl, beside⟩
  | some resting =>
    simp only [found] at untouched
    by_cases price : resting.price = order.price
    · simp only [if_pos price]
      exact ⟨trivial, requantify_beside beside different⟩
    · simp only [if_neg price] at untouched ⊢
      exact accept_beside (withdraw_beside beside different) (withdraw_live live order x.side) different untouched

private theorem process_beside (beside : Beside x holding lacking) (live : LiveBook holding) (different : order.orderId ≠ x.orderId)
    (untouched : ∀ execution ∈ (process holding order).1, ¬ execution.Involves x.orderId) :
    (process holding order).1 = (process lacking order).1 ∧ Beside x (process holding order).2 (process lacking order).2 := by
  unfold process at untouched ⊢
  cases action : order.action with
  | new =>
    rw [action] at untouched
    exact accept_beside beside (live x.side) different untouched
  | cancel => exact ⟨rfl, withdraw_beside beside different⟩
  | amend =>
    rw [action] at untouched
    exact amend_beside beside live different untouched
  | recovery | recoveryEnd => exact ⟨rfl, beside⟩

theorem serve_cons (book : Book) (order : Order) (rest : List Order) : serve book (order :: rest) =
    ((process book order).1 ++ (serve (process book order).2 rest).1, (serve (process book order).2 rest).2) := rfl

/-- The two runs. -/
theorem serve_beside {orders : List Order} (others : ∀ order ∈ orders, InRange order.quantity ∧ order.orderId ≠ x.orderId)
    (beside : Beside x holding lacking) (live : LiveBook holding)
    (untouched : ∀ execution ∈ (serve holding orders).1, ¬ execution.Involves x.orderId) :
    (serve holding orders).1 = (serve lacking orders).1 ∧ Beside x (serve holding orders).2 (serve lacking orders).2 := by
  induction orders generalizing holding lacking with
  | nil => exact ⟨rfl, beside⟩
  | cons order rest ih =>
    obtain ⟨⟨range, different⟩, more⟩ := forall_mem_cons.mp others
    rw [serve_cons] at untouched
    have now := process_beside beside live different fun execution member => untouched execution (mem_append_left _ member)
    have later := ih more now.2 (process_live live range) fun execution member => untouched execution (mem_append_right _ member)
    rw [serve_cons, serve_cons]
    exact ⟨by rw [now.1, later.1], later.2⟩

/-- No order is served before one it comes behind. -/
def Served (side : OrderSide) (orders : List Order) : Prop := orders.Pairwise fun first second => ¬ earlier side second first

private theorem among_insert {orders : List Order} (served : Served x.side orders) (fresh : ∀ resting ∈ orders, resting.orderId ≠ x.orderId) :
    Among x (List.orderedInsert (earlier x.side) x orders) orders := by
  induction orders with
  | nil => exact ⟨[], [], rfl, rfl, by simp, by simp⟩
  | cons head rest ih =>
    obtain ⟨named, others⟩ := forall_mem_cons.mp fresh
    by_cases before : earlier x.side x head
    · refine ⟨[], head :: rest, ?_, rfl, fresh, ?_⟩
      · rw [List.orderedInsert, if_pos before]
        rfl
      · intro resting member after
        have behind := earlier_asymm before
        rcases mem_cons.mp member with rfl | inside
        · exact behind after
        · exact rel_of_pairwise_cons served inside (earlier_trans after behind)
    · obtain ⟨front, back, long, short, apart, behind⟩ := ih served.of_cons others
      refine ⟨head :: front, back, ?_, ?_, forall_mem_cons.mpr ⟨named, apart⟩, behind⟩
      · rw [List.orderedInsert, if_neg before, long]
        rfl
      · rw [short]
        rfl

/-- A new order that does not cross joins its side and trades nothing. -/
theorem arrive {book : Book} (new : x.action = .new) (wants : x.quantity ≠ 0) (served : Served x.side (book.side x.side))
    (fresh : x.orderId ∉ book.ids) (apart : ∀ resting ∈ book.side x.side.opposite, crossing x.side x.price resting = false) :
    (process book x).1 = [] ∧ Beside x (process book x).2 book := by
  have own : book.withSide (book.side x.side.opposite) x.side.opposite = book := by
    apply book_eq x.side
    · rw [withSide_own]
    · rw [withSide_side]
  have absent : ∀ resting ∈ book.side x.side, resting.orderId ≠ x.orderId := by
    intro resting member same
    exact fresh ((mem_ids_iff x.side).mpr (.inl (mem_map.mpr ⟨resting, member, same⟩)))
  have processed : process book x = accept book x := by rw [process, new]
  rw [processed]
  simp only [accept, fill_uncrossed apart, own]
  rw [if_neg (not_or.mpr ⟨wants, fresh⟩)]
  refine ⟨rfl, ?_, ?_⟩
  · rw [withSide_side]
    exact among_insert served absent
  · rw [withSide_opposite]

/-- Cancelling the order leaves the other book. -/
theorem leave (beside : Beside x holding lacking) {cancel : Order} (action : cancel.action = .cancel)
    (id : cancel.orderId = x.orderId) (side : cancel.side = x.side) : process holding cancel = ([], lacking) := by
  have same : withdraw holding cancel = lacking := by
    unfold withdraw
    rw [id, side, beside.own.withdraw]
    apply book_eq x.side
    · rw [withSide_side]
    · rw [withSide_opposite, beside.other]
  rw [process, action]
  simp only [same]

/-- With the order placed, left alone and cancelled, a run comes to what it
comes to without the order. -/
theorem serve_untouched {book : Book} {orders : List Order} (live : LiveBook book) (served : Served x.side (book.side x.side))
    (new : x.action = .new) (range : InRange x.quantity) (fresh : x.orderId ∉ book.ids)
    (apart : ∀ resting ∈ book.side x.side.opposite, crossing x.side x.price resting = false)
    (others : ∀ order ∈ orders, InRange order.quantity ∧ order.orderId ≠ x.orderId)
    (untouched : ∀ execution ∈ (serve book (x :: orders)).1, ¬ execution.Involves x.orderId)
    {cancel : Order} (action : cancel.action = .cancel) (id : cancel.orderId = x.orderId) (side : cancel.side = x.side) :
    (serve book (x :: orders)).1 = (serve book orders).1 ∧
      process (serve book (x :: orders)).2 cancel = ([], (serve book orders).2) := by
  have wants := UInt64.pos_iff_ne_zero.mp range.1
  obtain ⟨quiet, beside⟩ := arrive new wants served fresh apart
  rw [serve_cons, quiet, nil_append] at untouched ⊢
  obtain ⟨same, after⟩ := serve_beside others beside (process_live live range) untouched
  exact ⟨same, leave after action id side⟩

end FinanceTech.Proofs.UntouchedOrder
