import FinanceTech.Library.Index
import FinanceTech.Library.Runs
import FinanceTech.SimpleOrderBook

/-! The lists of the book and its index by id. A cancel takes the list from the
message and the element from the index, and an insert writes over the index, so
the two agree as long as both mean the same order. -/

namespace FinanceTech.Proofs.ListIndex
open Library Index Strings TestAssignmentLocal
open DaVinchiTest (OrderSide Order OrderIter)
open Function (update)

variable {Price : Type} {book next : SimpleOrderBook Price} {order : Order Price} {orders : OrdersList} {iter : OrderIter}

/-- Where an order belongs. -/
def place (order : Order Price) : Text × OrderSide := (order.symbol, order.side)

def lists (book : SimpleOrderBook Price) (spot : Text × OrderSide) : OrdersList := (book.orderBook spot.1).getOrders spot.2

/-- The live elements of the lists. -/
def listed (book : SimpleOrderBook Price) : Text × OrderSide → List OrderIter := OrdersList.iterators ∘ lists book

/-- The index and the elements of all lists are in one-to-one correspondence by
id, and every list reports as many elements as it has. -/
structure Corresponds (book : SimpleOrderBook Price) : Prop where
  oneToOne : OneToOne Order.id book.nodes book.ordersById (listed book)
  sized : ∀ spot, (lists book spot).size = (lists book spot).iterators.length

structure Valid (book : SimpleOrderBook Price) : Prop where
  indexed : Indexed Order.id place book.nodes book.ordersById (listed book)
  sized : ∀ spot, (lists book spot).size = (lists book spot).iterators.length
  free : ∀ iter, book.unused ≤ iter → book.nodes iter = none

private theorem Valid.corresponds (valid : Valid book) : Corresponds book where
  oneToOne := valid.indexed.oneToOne
  sized := valid.sized

theorem initial_valid : Valid ({} : SimpleOrderBook Price) where
  indexed := by
    have empty : listed ({} : SimpleOrderBook Price) = fun _ => [] := by
      funext spot
      cases spot with
      | mk symbol side => cases side <;> rfl
    rw [empty]
    exact Indexed.initial
  sized spot := by
    cases spot with
    | mk symbol side => cases side <;> rfl
  free _ _ := rfl

theorem lists_setOrders : lists (book.setOrders order orders) = update (lists book) (place order) orders :=
  update_member SymbolOrders.getOrders SymbolOrders.setOrders SymbolOrders.getOrders_setOrders book.orderBook order.symbol order.side orders

theorem listed_setOrders : listed (book.setOrders order orders) = update (listed book) (place order) orders.iterators := by
  rw [listed, lists_setOrders]
  exact Function.comp_update _ _ _ _

private theorem sized_setOrders (valid : Valid book) (own : orders.size = orders.iterators.length) (spot : Text × OrderSide) :
    (lists (book.setOrders order orders) spot).size = (lists (book.setOrders order orders) spot).iterators.length := by
  rw [lists_setOrders]
  revert spot
  apply (Function.forall_update_iff (lists book) fun _ orders => orders.size = orders.iterators.length).mpr
  exact ⟨own, fun spot _ => valid.sized spot⟩

theorem insert_valid (valid : Valid book) (absent : book.ordersById order.id = none) : Valid (book.insert order) where
  indexed := by
    have perm : ((book.orders order).insert book.unused).iterators.Perm (book.unused :: listed book (place order)) :=
      List.perm_append_singleton _ _
    have arrived := valid.indexed.arrive (valid.free _ (Nat.le_refl _)) absent perm
    rw [← listed_setOrders] at arrived
    exact arrived
  sized := by
    apply sized_setOrders valid
    rw [OrdersList.insert, List.length_append]
    exact congrArg Nat.succ (valid.sized (place order))
  free := unused_arrive valid.free order

theorem insert_needs (valid : Valid book) (corresponds : Corresponds (book.insert order)) : book.ordersById order.id = none := by
  have unheld := valid.free book.unused (Nat.le_refl _)
  have perm : (listed book (place order) ++ [book.unused]).Perm (book.unused :: listed book (place order)) :=
    List.perm_append_singleton _ _
  apply valid.indexed.absent_of_arrived unheld perm
  have whole : listed (book.insert order) = update (listed book) (place order) (listed book (place order) ++ [book.unused]) :=
    listed_setOrders
  rw [← whole]
  exact corresponds.oneToOne

theorem erase_some (erased : (book.orders order).erase iter = some orders) :
    iter ∈ listed book (place order) ∧ (listed book (place order)).Perm (iter :: orders.iterators) ∧
      orders.size = (book.orders order).size - 1 := by
  unfold OrdersList.erase at erased
  split at erased
  next member =>
    cases erased
    exact ⟨member, List.perm_cons_erase member, rfl⟩
  next => cases erased

theorem cancel_valid (valid : Valid book) (known : book.ordersById order.id = some iter)
    (own : ∀ held, book.nodes iter = some held → held.symbol = order.symbol ∧ held.side = order.side) :
    ∃ next, book.cancel order iter = some next ∧ Valid next := by
  obtain ⟨held, holds, named, member⟩ := valid.indexed.found _ _ known
  have same : place held = place order := Prod.ext (own held holds).1 (own held holds).2
  have stands : iter ∈ listed book (place order) := same ▸ member
  obtain ⟨orders, erased⟩ : ∃ orders, (book.orders order).erase iter = some orders := ⟨_, if_pos stands⟩
  obtain ⟨_, perm, counted⟩ := erase_some erased
  refine ⟨{ book.setOrders order orders with
      ordersById := update book.ordersById order.id none
      nodes := update book.nodes iter none }, ?_, ?_⟩
  · simp only [SimpleOrderBook.cancel, erased, Option.bind_eq_bind, Option.bind_some, Option.pure_def]
  constructor
  · have left := valid.indexed.leave holds (named ▸ known) (same ▸ perm)
    rw [same, named, ← listed_setOrders] at left
    exact left
  · apply sized_setOrders valid
    have length := perm.length_eq
    have size : (book.orders order).size = (listed book (place order)).length := valid.sized (place order)
    rw [List.length_cons] at length
    omega
  · exact unused_leave valid.free iter

theorem cancel_needs (valid : Valid book) (cancelled : book.cancel order iter = some next) {held : Order Price}
    (holds : book.nodes iter = some held) : held.symbol = order.symbol ∧ held.side = order.side := by
  simp only [SimpleOrderBook.cancel, Option.bind_eq_bind, Option.bind_eq_some_iff] at cancelled
  obtain ⟨orders, erased, _⟩ := cancelled
  have same := valid.indexed.place_eq holds (erase_some erased).1
  exact ⟨congrArg Prod.fst same, congrArg Prod.snd same⟩

theorem amend_valid (valid : Valid book) (known : book.ordersById order.id = some iter) :
    ∃ next, book.amend order iter = some next ∧ Valid next := by
  obtain ⟨held, holds, _⟩ := valid.indexed.found _ _ known
  refine ⟨{ book with nodes := update book.nodes iter (some { held with price := order.price, volume := order.volume }) }, ?_, ?_⟩
  · simp only [SimpleOrderBook.amend, holds, Option.bind_eq_bind, Option.bind_some, Option.pure_def]
  constructor
  · exact valid.indexed.change holds rfl rfl
  · exact valid.sized
  · exact unused_change valid.free holds _

/-- An insert brings an id that no order of the book has; a cancel of a known id
names the symbol and the side of the order that has it. -/
def Unambiguous (book : SimpleOrderBook Price) (order : Order Price) : Prop :=
  match order.operation with
  | .insert => book.ordersById order.id = none
  | .cancel => ∀ iter held, book.ordersById order.id = some iter → book.nodes iter = some held →
      held.symbol = order.symbol ∧ held.side = order.side
  | .amend => True

theorem processOrder_valid (valid : Valid book) (clear : Unambiguous book order) :
    ∃ next, book.processOrder order = some next ∧ Valid next := by
  unfold Unambiguous at clear
  unfold SimpleOrderBook.processOrder
  cases operation : order.operation with
  | insert =>
    rw [operation] at clear
    exact ⟨_, rfl, insert_valid valid clear⟩
  | cancel =>
    rw [operation] at clear
    cases known : book.ordersById order.id with
    | none => exact ⟨book, rfl, valid⟩
    | some iter => exact cancel_valid valid known (clear iter · known)
  | amend =>
    cases known : book.ordersById order.id with
    | none => exact ⟨book, rfl, valid⟩
    | some iter => exact amend_valid valid known

private theorem processOrder_needs (valid : Valid book) (moved : book.processOrder order = some next) (corresponds : Corresponds next) :
    Unambiguous book order := by
  unfold Unambiguous
  unfold SimpleOrderBook.processOrder at moved
  cases operation : order.operation with
  | insert =>
    rw [operation] at moved
    cases moved
    exact insert_needs valid corresponds
  | cancel =>
    intro iter held known holds
    simp only [operation, known] at moved
    exact cancel_needs valid moved holds
  | amend => trivial

/-- Index and lists agree in every state of a run exactly where every insert brings
a new id and every cancel of a known id names the list of its order. -/
theorem lists_correspond_iff (stream : List (Order Price)) :
    (∀ before, before <+: stream → ∃ book, before.foldlM SimpleOrderBook.processOrder {} = some book ∧ Corresponds book) ↔
      Runs.AtEveryStepM SimpleOrderBook.processOrder Unambiguous {} stream := by
  have shows : ∀ (before : List (Order Price)) (book : SimpleOrderBook Price), Valid book →
      ∃ shown, some book = some shown ∧ Corresponds shown :=
    fun _ book valid => ⟨book, rfl, valid.corresponds⟩
  apply Runs.history_iff (fun _ result => ∃ book, result = some book ∧ Corresponds book) shows
  · intro _ order book _ _ valid clear
    exact processOrder_valid valid clear
  · intro _ order book _ _ valid good
    obtain ⟨next, moved, corresponds⟩ := good
    exact processOrder_needs valid moved corresponds
  · exact initial_valid

def firstOrder : Order Nat where
  timestamp := [49, 52, 58, 49, 55, 58, 50, 49]
  symbol := [68, 86, 65, 77, 49]
  id := [49]
  volume := 100
  price := 12
  operation := .insert
  side := .buy

/-- An order that comes twice is listed twice, and the index has the second one. -/
theorem lists_correspond_repeated_id : ¬ ∀ (stream before : List (Order Nat)), before <+: stream →
    ∃ book, before.foldlM SimpleOrderBook.processOrder {} = some book ∧ Corresponds book := by
  intro all
  obtain ⟨book, ran, corresponds⟩ := all [firstOrder, firstOrder] _ List.prefix_rfl
  cases ran
  have absent := insert_needs (insert_valid initial_valid rfl) corresponds
  cases absent

end FinanceTech.Proofs.ListIndex
