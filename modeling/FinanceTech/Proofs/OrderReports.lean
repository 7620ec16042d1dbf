import FinanceTech.Library.Largest
import FinanceTech.Library.Runs
import FinanceTech.Proofs.ListIndex

/-! What the book of lists reports. Whatever stream it has processed, each list
has the orders it says, even where the index by id has lost some of them. -/

namespace FinanceTech.Proofs.OrderReports
open List Library Index Strings TestAssignmentLocal ListIndex SimpleOrderBook
open DaVinchiTest (OrderSide Operation Order OrderIter)
open Function (update)

variable {Price : Type} {book next : SimpleOrderBook Price} {order : Order Price} {iter : OrderIter}

/-- What is left of the correspondence when ids may repeat: every element of a list is
live and of its place, it is there once, and the size counts the elements. -/
structure Listed (book : SimpleOrderBook Price) : Prop where
  placed : ∀ spot iter, iter ∈ listed book spot → ∃ held, book.nodes iter = some held ∧ place held = spot
  once : ∀ spot, (listed book spot).Nodup
  sized : ∀ spot, (lists book spot).size = (lists book spot).iterators.length
  free : ∀ iter, book.unused ≤ iter → book.nodes iter = none

private theorem initial_listed : Listed ({} : SimpleOrderBook Price) where
  placed _ _ member := by
    obtain ⟨held, holds, same, -⟩ := initial_valid.indexed.mapped _ _ member
    exact ⟨held, holds, same⟩
  once := initial_valid.indexed.once
  sized := initial_valid.sized
  free := initial_valid.free

theorem Listed.unlisted (kept : Listed book) (spot : Text × OrderSide) : book.unused ∉ listed book spot := by
  intro member
  obtain ⟨held, holds, -⟩ := kept.placed spot _ member
  cases holds.symm.trans (kept.free _ (Nat.le_refl _))

section Lists

variable {orders : OrdersList}

private theorem once_setOrders (kept : Listed book) (own : orders.iterators.Nodup) (spot : Text × OrderSide) :
    (listed (book.setOrders order orders) spot).Nodup := by
  rw [listed_setOrders]
  exact (Function.forall_update_iff (listed book) fun _ iterators => iterators.Nodup).mpr ⟨own, fun spot _ => kept.once spot⟩ spot

private theorem counted_setOrders (kept : Listed book) (own : orders.size = orders.iterators.length) (spot : Text × OrderSide) :
    (lists (book.setOrders order orders) spot).size = (lists (book.setOrders order orders) spot).iterators.length := by
  rw [lists_setOrders]
  exact (Function.forall_update_iff (lists book) fun _ orders => orders.size = orders.iterators.length).mpr
    ⟨own, fun spot _ => kept.sized spot⟩ spot

private theorem mem_setOrders {spot : Text × OrderSide} (member : iter ∈ listed (book.setOrders order orders) spot) :
    (spot = place order ∧ iter ∈ orders.iterators) ∨ (spot ≠ place order ∧ iter ∈ listed book spot) := by
  rw [listed_setOrders] at member
  by_cases same : spot = place order
  · subst same
    rw [Function.update_self] at member
    exact .inl ⟨rfl, member⟩
  · rw [Function.update_of_ne same] at member
    exact .inr ⟨same, member⟩

end Lists

theorem Listed.insert (kept : Listed book) (order : Order Price) : Listed (book.insert order) where
  placed spot iter member := by
    have old (member : iter ∈ listed book spot) : ∃ held, (book.insert order).nodes iter = some held ∧ place held = spot := by
      obtain ⟨held, holds, stands⟩ := kept.placed spot iter member
      have apart : iter ≠ book.unused := fun same => kept.unlisted spot (same ▸ member)
      exact ⟨held, (Function.update_of_ne apart _ _).trans holds, stands⟩
    rcases mem_setOrders member with ⟨rfl, inside⟩ | ⟨-, inside⟩
    · rcases mem_append.mp inside with before | new
      · exact old before
      · rw [mem_singleton.mp new]
        exact ⟨order, Function.update_self _ _ _, rfl⟩
    · exact old inside
  once := once_setOrders kept ((kept.once _).append (nodup_singleton _) (disjoint_singleton.mpr (kept.unlisted (place order))))
  sized := by
    apply counted_setOrders kept
    rw [OrdersList.insert, length_append]
    exact congrArg Nat.succ (kept.sized (place order))
  free := unused_arrive kept.free order

theorem Listed.cancel (kept : Listed book) (cancelled : book.cancel order iter = some next) : Listed next := by
  simp only [SimpleOrderBook.cancel, Option.bind_eq_bind, Option.bind_eq_some_iff] at cancelled
  obtain ⟨orders, erased, same⟩ := cancelled
  cases same
  obtain ⟨member, perm, counted⟩ := erase_some erased
  obtain ⟨gone, rest⟩ := nodup_cons.mp (perm.nodup_iff.mp (kept.once (place order)))
  obtain ⟨held, holds, stands⟩ := kept.placed _ _ member
  refine ⟨fun spot other inside => ?_, once_setOrders kept rest, counted_setOrders kept ?_, unused_leave kept.free iter⟩
  · have apart : other ≠ iter ∧ other ∈ listed book spot := by
      rcases mem_setOrders inside with ⟨rfl, left⟩ | ⟨different, before⟩
      · exact ⟨fun equal => gone (equal ▸ left), perm.mem_iff.mpr (mem_cons_of_mem _ left)⟩
      · refine ⟨fun equal => different ?_, before⟩
        obtain ⟨found, also, there⟩ := kept.placed spot other before
        cases holds.symm.trans (equal ▸ also)
        exact there.symm.trans stands
    obtain ⟨found, also, there⟩ := kept.placed spot other apart.2
    exact ⟨found, (Function.update_of_ne apart.1 _ _).trans also, there⟩
  · have length := perm.length_eq
    have size : (book.orders order).size = (listed book (place order)).length := kept.sized (place order)
    rw [length_cons] at length
    omega

theorem Listed.amend (kept : Listed book) (amended : book.amend order iter = some next) : Listed next := by
  simp only [SimpleOrderBook.amend, Option.bind_eq_bind, Option.bind_eq_some_iff] at amended
  obtain ⟨held, holds, same⟩ := amended
  cases same
  refine ⟨fun spot other inside => ?_, kept.once, kept.sized, unused_change kept.free holds _⟩
  obtain ⟨found, also, there⟩ := kept.placed spot other inside
  by_cases equal : other = iter
  · subst equal
    cases holds.symm.trans also
    exact ⟨_, Function.update_self _ _ _, there⟩
  · exact ⟨found, (Function.update_of_ne equal _ _).trans also, there⟩

theorem Listed.processOrder (kept : Listed book) (moved : book.processOrder order = some next) : Listed next := by
  unfold SimpleOrderBook.processOrder at moved
  cases operation : order.operation with
  | insert =>
    rw [operation] at moved
    cases moved
    exact kept.insert order
  | cancel =>
    cases known : book.ordersById order.id with
    | none =>
      simp only [operation, known] at moved
      cases moved
      exact kept
    | some iter =>
      simp only [operation, known] at moved
      exact kept.cancel moved
  | amend =>
    cases known : book.ordersById order.id with
    | none =>
      simp only [operation, known] at moved
      cases moved
      exact kept
    | some iter =>
      simp only [operation, known] at moved
      exact kept.amend moved

private theorem run_listed {stream : List (Order Price)} (ran : stream.foldlM SimpleOrderBook.processOrder {} = some book) : Listed book :=
  Runs.foldlM_preserves Listed (fun _ _ _ _ moved kept => kept.processOrder moved) ran initial_listed

private theorem Listed.mapM_nodes (kept : Listed book) {spot : Text × OrderSide} {iterators : List OrderIter}
    (inside : iterators ⊆ listed book spot) : ∃ orders, iterators.mapM book.nodes = some orders ∧
      orders.length = iterators.length ∧ ∀ order ∈ orders, place order = spot := by
  induction iterators with
  | nil => exact ⟨[], rfl, rfl, fun _ member => absurd member not_mem_nil⟩
  | cons iter iterators ih =>
    obtain ⟨here, later⟩ := cons_subset.mp inside
    obtain ⟨held, holds, stands⟩ := kept.placed spot iter here
    obtain ⟨orders, read, length, places⟩ := ih later
    exact ⟨held :: orders, by simp [mapM_cons, holds, read], congrArg Nat.succ length, forall_mem_cons.mpr ⟨stands, places⟩⟩

/-- What `make_heap` promises for `compareByVolume`: the same elements, and in front one
that none of the others is smaller than. -/
def HeapsByVolume (makeHeap : List (Order Price) → List (Order Price)) : Prop :=
  ∀ orders, makeHeap orders ~ orders ∧ ∀ front rest, makeHeap orders = front :: rest → ∀ order ∈ rest, front.volume ≤ order.volume

def volume (order : Order Price) : Nat := order.volume.toNat

private theorem offer_largest {makeHeap : List (Order Price) → List (Order Price)} (heap : HeapsByVolume makeHeap)
    {all topOrders : List (Order Price)} (largest : Largest volume all topOrders) (some : topOrders ≠ []) (order : Order Price) :
    ∃ next, offer makeHeap topOrders order = .some next ∧ Largest volume (all ++ [order]) next ∧ next.length = topOrders.length := by
  obtain ⟨perm, least⟩ := heap topOrders
  have length := perm.length_eq
  unfold offer
  cases heaped : makeHeap topOrders with
  | nil =>
    rw [heaped] at perm
    exact absurd perm.nil_eq.symm some
  | cons front rest =>
    rw [heaped] at perm length
    have smallest : ∀ kept ∈ rest, volume front ≤ volume kept := least front rest heaped
    have kept := largest.perm perm.symm
    by_cases bigger : order.volume > front.volume
    · refine ⟨order :: rest, if_pos (decide_eq_true bigger), kept.replace smallest bigger, ?_⟩
      rw [length_cons] at length ⊢
      exact length
    · refine ⟨front :: rest, if_neg (by simpa [compareByVolume] using bigger), kept.pass smallest (Nat.le_of_not_lt bigger), length⟩

private theorem offers_largest {makeHeap : List (Order Price) → List (Order Price)} (heap : HeapsByVolume makeHeap)
    (orders : List (Order Price)) {all topOrders : List (Order Price)} (largest : Largest volume all topOrders)
    (some : topOrders ≠ [] ∨ orders = []) :
    ∃ next, orders.foldlM (offer makeHeap) topOrders = .some next ∧ Largest volume (all ++ orders) next ∧
      next.length = topOrders.length := by
  induction orders generalizing all topOrders with
  | nil => exact ⟨topOrders, rfl, by rwa [append_nil], rfl⟩
  | cons order orders ih =>
    have nonempty : topOrders ≠ [] := some.resolve_right (cons_ne_nil _ _)
    obtain ⟨next, offered, kept, length⟩ := offer_largest heap largest nonempty order
    have stays : next ≠ [] := fun empty => nonempty (length_eq_zero_iff.mp (length.symm.trans (congrArg List.length empty)))
    obtain ⟨final, ran, ended, same⟩ := ih kept (.inl stays)
    refine ⟨final, ?_, ?_, same.trans length⟩
    · rw [foldlM_cons, offered]
      exact ran
    · rwa [append_cons]

/-- In every run, the three orders printed are buy orders of the symbol, and none of
the others has a larger volume. Where there are fewer, all of them are printed. -/
theorem biggestBuyOrders_largest (makeHeap : List (Order Price) → List (Order Price)) (heap : HeapsByVolume makeHeap)
    (stream : List (Order Price)) (ran : stream.foldlM SimpleOrderBook.processOrder {} = some book) (symbol : Text) :
    ∃ bought top, (listed book (symbol, .buy)).mapM book.nodes = some bought ∧ (∀ order ∈ bought, place order = (symbol, .buy)) ∧
      biggestBuyOrders makeHeap book symbol = some top ∧ top.length = min 3 bought.length ∧ Largest volume bought top := by
  have kept := run_listed ran
  let iterators := (book.orderBook symbol).buyOrders.iterators
  have size : (book.orderBook symbol).buyOrders.size = iterators.length := kept.sized (symbol, .buy)
  let top := min iterators.length 3
  obtain ⟨first, taken, firstLength, firstPlaces⟩ := kept.mapM_nodes (show iterators.take top ⊆ listed book (symbol, .buy) from take_subset top _)
  obtain ⟨others, dropped, othersLength, othersPlaces⟩ := kept.mapM_nodes (show iterators.drop top ⊆ listed book (symbol, .buy) from drop_subset top _)
  have whole : iterators.mapM book.nodes = some (first ++ others) := by
    rw [← take_append_drop top iterators, mapM_append, taken, dropped]
    rfl
  have some : first ≠ [] ∨ others = [] := by
    rw [length_take] at firstLength
    rw [length_drop] at othersLength
    by_cases empty : first = []
    · rw [empty, length_nil] at firstLength
      exact .inr (length_eq_zero_iff.mp (by omega))
    · exact .inl empty
  obtain ⟨final, ran, largest, length⟩ := offers_largest heap others (Largest.whole first) some
  refine ⟨first ++ others, final, whole, ?_, ?_, ?_, largest⟩
  · exact forall_mem_append.mpr ⟨firstPlaces, othersPlaces⟩
  · have inside : min iterators.length 3 ≤ iterators.length := Nat.min_le_left _ _
    unfold biggestBuyOrders
    dsimp only
    rw [size, if_pos inside]
    change ((iterators.take top).mapM book.nodes).bind (fun topOrders =>
      ((iterators.drop top).mapM book.nodes).bind fun others => others.foldlM (offer makeHeap) topOrders) = _
    rw [taken, dropped]
    exact ran
  · rw [length_append, firstLength, othersLength, ← length_append, take_append_drop, length.trans firstLength, length_take]
    omega

/-- A heap with its elements in order. -/
def smallestFirst (orders : List (Order Nat)) : List (Order Nat) := orders.mergeSort fun first second => decide (first.volume ≤ second.volume)

private theorem smallestFirst_heaps : HeapsByVolume smallestFirst := by
  intro orders
  refine ⟨mergeSort_perm _ _, fun front rest heaped order member => ?_⟩
  have sorted : (smallestFirst orders).Pairwise fun first second => decide (first.volume ≤ second.volume) = true := by
    apply pairwise_mergeSort
    · intro first second third one two
      exact decide_eq_true (UInt32.le_trans (of_decide_eq_true one) (of_decide_eq_true two))
    · intro first second
      rw [Bool.or_eq_true, decide_eq_true_eq, decide_eq_true_eq]
      exact UInt32.le_total _ _
  rw [heaped] at sorted
  exact of_decide_eq_true (rel_of_pairwise_cons sorted member)

def orderFor (side : OrderSide) (id : UInt8) (volume : UInt32) : Order Nat :=
  { timestamp := [49], symbol := [84], id := [id], volume, price := id.toNat, operation := .insert, side }

/-- Six buy orders, the second of which is cancelled; two of the others are left out. -/
def sixOrders : List (Order Nat) :=
  [orderFor .buy 1 5, orderFor .buy 2 9, orderFor .buy 3 7, orderFor .buy 4 8, orderFor .buy 5 6, orderFor .buy 6 9,
    { orderFor .buy 2 0 with operation := .cancel }]

theorem biggestBuyOrders_largest_six : ∃ book bought top, sixOrders.foldlM SimpleOrderBook.processOrder {} = some book ∧
    (listed book ([84], .buy)).mapM book.nodes = some bought ∧ bought.length = 5 ∧
    biggestBuyOrders smallestFirst book [84] = some top ∧ top.length = 3 ∧ Largest volume bought top := by
  obtain ⟨book, ran, five⟩ : ∃ book, sixOrders.foldlM SimpleOrderBook.processOrder {} = some book ∧
      ((listed book ([84], .buy)).mapM book.nodes).map length = some 5 := ⟨_, rfl, rfl⟩
  obtain ⟨bought, top, read, -, printed, three, largest⟩ := biggestBuyOrders_largest smallestFirst smallestFirst_heaps _ ran [84]
  rw [read] at five
  have length : bought.length = 5 := Option.some.inj five
  rw [length] at three
  exact ⟨book, bought, top, ran, read, length, printed, three, largest⟩

section Sell

variable [LinearOrder Price] [Zero Price]

def Offers (timeStr : Text) (order : Order Price) : Prop := timeStr <+: order.timestamp ∧ 0 < order.price

/-- The first of the best priced orders of the time, or nothing where there is none. -/
def FirstBest (timeStr : Text) (orders : List (Order Price)) (best : Price × UInt32) : Prop :=
  (best = (0, 0) ∧ ∀ order ∈ orders, ¬ Offers timeStr order) ∨
  ∃ front order back, orders = front ++ order :: back ∧ Offers timeStr order ∧ best = (order.price, order.volume) ∧
    (∀ other ∈ front, Offers timeStr other → other.price < order.price) ∧
    ∀ other ∈ back, Offers timeStr other → other.price ≤ order.price

theorem FirstBest.nonneg {timeStr : Text} {orders : List (Order Price)} {best : Price × UInt32}
    (first : FirstBest timeStr orders best) : 0 ≤ best.1 := by
  rcases first with ⟨rfl, -⟩ | ⟨front, order, back, -, offers, rfl, -, -⟩
  · exact le_refl _
  · exact le_of_lt offers.2

theorem FirstBest.bound {timeStr : Text} {orders : List (Order Price)} {best : Price × UInt32}
    (first : FirstBest timeStr orders best) : ∀ other ∈ orders, Offers timeStr other → other.price ≤ best.1 := by
  rcases first with ⟨-, none⟩ | ⟨front, order, back, rfl, offers, rfl, ahead, behind⟩
  · exact fun other member offers => absurd offers (none other member)
  · intro other member offered
    rcases mem_append.mp member with before | here
    · exact le_of_lt (ahead other before offered)
    · rcases mem_cons.mp here with rfl | after
      · exact le_refl _
      · exact behind other after offered

theorem FirstBest.step {timeStr : Text} {orders : List (Order Price)} {best : Price × UInt32}
    (first : FirstBest timeStr orders best) (order : Order Price) :
    FirstBest timeStr (orders ++ [order]) (betterSell timeStr best order) := by
  unfold betterSell
  by_cases better : timeStr <+: order.timestamp ∧ best.1 < order.price
  · have taken : (timeStr.isPrefixOf order.timestamp && decide (order.price > best.1)) = true := by
      rw [Bool.and_eq_true, isPrefixOf_iff_prefix, decide_eq_true_eq]
      exact better
    rw [if_pos taken]
    refine .inr ⟨orders, order, [], rfl, ⟨better.1, lt_of_le_of_lt first.nonneg better.2⟩, rfl, fun other member offers => ?_, ?_⟩
    · exact lt_of_le_of_lt (first.bound other member offers) better.2
    · exact fun _ member => absurd member not_mem_nil
  · have left : ¬ (timeStr.isPrefixOf order.timestamp && decide (order.price > best.1)) = true := by
      rw [Bool.and_eq_true, isPrefixOf_iff_prefix, decide_eq_true_eq]
      exact better
    rw [if_neg left]
    have small (offers : Offers timeStr order) : order.price ≤ best.1 := le_of_not_gt fun greater => better ⟨offers.1, greater⟩
    rcases first with ⟨rfl, none⟩ | ⟨front, held, back, rfl, offers, rfl, ahead, behind⟩
    · refine .inl ⟨rfl, fun other member => ?_⟩
      rcases mem_append.mp member with old | new
      · exact none other old
      · rw [mem_singleton.mp new]
        exact fun offers => absurd offers.2 (not_lt_of_ge (small offers))
    · refine .inr ⟨front, held, back ++ [order], by simp, offers, rfl, ahead, fun other member offered => ?_⟩
      rcases mem_append.mp member with old | new
      · exact behind other old offered
      · rw [mem_singleton.mp new] at offered ⊢
        exact small offered

/-- In every run, what is printed is the price and the volume of the first of the sell
orders of the symbol with the greatest price among those of the time, and nothing if
none has a price above zero or that order has no volume. -/
theorem bestSellAtTime_first (stream : List (Order Price)) (ran : stream.foldlM SimpleOrderBook.processOrder {} = some book)
    (symbol timeStr : Text) : ∃ sold best, (listed book (symbol, .sell)).mapM book.nodes = some sold ∧
      (∀ order ∈ sold, place order = (symbol, .sell)) ∧ FirstBest timeStr sold best ∧
      bestSellAtTime book symbol timeStr = some (if best.2 ≠ 0 then some best else none) := by
  obtain ⟨sold, read, -, places⟩ := (run_listed ran).mapM_nodes (Subset.refl (listed book (symbol, .sell)))
  have found (orders : List (Order Price)) : FirstBest timeStr orders (orders.foldl (betterSell timeStr) (0, 0)) := by
    induction orders using reverseRecOn with
    | nil => exact .inl ⟨rfl, fun _ member => absurd member not_mem_nil⟩
    | append_singleton orders order ih =>
      rw [foldl_concat]
      exact ih.step order
  refine ⟨sold, _, read, places, found sold, ?_⟩
  unfold bestSellAtTime
  change ((listed book (symbol, .sell)).mapM book.nodes).bind _ = _
  rw [read]
  rfl

end Sell

/-- Two sell orders of one time. -/
theorem bestSellAtTime_first_two : ∃ book sold best,
    [orderFor .sell 1 5, orderFor .sell 2 9].foldlM SimpleOrderBook.processOrder {} = some book ∧ FirstBest [49] sold best ∧
      bestSellAtTime book [84] [49] = some (if best.2 ≠ 0 then some best else none) := by
  obtain ⟨book, ran⟩ : ∃ book, [orderFor .sell 1 5, orderFor .sell 2 9].foldlM SimpleOrderBook.processOrder {} = some book := ⟨_, rfl⟩
  obtain ⟨sold, best, -, -, first, printed⟩ := bestSellAtTime_first _ ran [84] [49]
  exact ⟨book, sold, best, ran, first, printed⟩

end FinanceTech.Proofs.OrderReports
