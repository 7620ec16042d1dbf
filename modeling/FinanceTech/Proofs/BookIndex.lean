import FinanceTech.DaVinchiTest
import FinanceTech.Library.Index
import FinanceTech.Library.Runs

/-! The price maps of the book and its index by id. A node is taken out of a map
that the message chooses, and the index is given whatever node stands at a price,
so the two stay in step as long as the message means the order that has its id
and the price is free. -/

namespace FinanceTech.Proofs.BookIndex
open Library Index SortedMap Strings DaVinchiTest
open Function (update)

variable {Price : Type} [LinearOrder Price]

/-- Where an order belongs. -/
def place (order : Order (Number Price)) : Text × OrderSide := (order.symbol, order.side)

def lists (book : Book Price) (spot : Text × OrderSide) : OrdersList Price := (book.orderBook spot.1).getOrders spot.2

/-- The nodes of a map. -/
def iterators (orders : OrdersList Price) : List OrderIter := orders.entries.map Sigma.snd

private theorem iterators_perm {first second : OrdersList Price} {price : Number Price} {iter : OrderIter}
    (perm : first.entries.Perm (⟨price, iter⟩ :: second.entries)) : (iterators first).Perm (iter :: iterators second) :=
  perm.map fun entry : (_ : Number Price) × OrderIter => entry.2

def Priced (nodes : OrderIter → Option (Order (Number Price))) (lists : Text × OrderSide → OrdersList Price) : Prop :=
  ∀ spot, ∀ entry ∈ (lists spot).entries, ∃ order, nodes entry.2 = some order ∧ order.price = entry.1

/-- The index leads from each id to one entry, over all symbols and sides, that holds
an order with that id at its price, and to each entry from one id. -/
structure Bijective (book : Book Price) : Prop where
  oneToOne : OneToOne Order.id book.nodes book.ordersById (iterators ∘ lists book)
  priced : Priced book.nodes (lists book)

structure Stored (nodes : OrderIter → Option (Order (Number Price))) (ordersById : Text → Option OrderIter)
    (lists : Text × OrderSide → OrdersList Price) : Prop where
  indexed : Indexed Order.id place nodes ordersById (iterators ∘ lists)
  priced : Priced nodes lists

section Stored

variable {nodes : OrderIter → Option (Order (Number Price))} {ordersById : Text → Option OrderIter}
  {lists : Text × OrderSide → OrdersList Price} {iter fresh : OrderIter} {held order : Order (Number Price)}
  {fewer more : OrdersList Price} {price : Number Price}

theorem Stored.leave (stored : Stored nodes ordersById lists) (holds : nodes iter = some held) (known : ordersById held.id = some iter)
    (perm : (lists (place held)).entries.Perm (⟨price, iter⟩ :: fewer.entries)) :
    Stored (update nodes iter none) (update ordersById held.id none) (update lists (place held) fewer) := by
  have gone := iterators_perm perm
  have left := stored.indexed.leave holds known gone
  rw [← Function.comp_update] at left
  refine ⟨left, ?_⟩
  intro spot entry member
  have inside : entry.2 ∈ update (iterators ∘ lists) (place held) (iterators fewer) spot := by
    rw [← Function.comp_update]
    exact List.mem_map_of_mem member
  have apart := ((stored.indexed.mem_left holds gone).mp inside).1
  rw [Function.update_of_ne apart]
  apply stored.priced spot
  by_cases same : spot = place held
  · subst same
    rw [Function.update_self] at member
    exact perm.mem_iff.mpr (List.mem_cons_of_mem _ member)
  · rwa [Function.update_of_ne same] at member

theorem Stored.arrive (stored : Stored nodes ordersById lists) (unheld : nodes fresh = none) (absent : ordersById order.id = none)
    (perm : more.entries.Perm (⟨order.price, fresh⟩ :: (lists (place order)).entries)) :
    Stored (update nodes fresh (some order)) (update ordersById order.id (some fresh)) (update lists (place order) more) := by
  have came := iterators_perm perm
  have arrived := stored.indexed.arrive unheld absent came
  rw [← Function.comp_update] at arrived
  refine ⟨arrived, ?_⟩
  have old : ∀ spot, ∀ entry ∈ (lists spot).entries,
      ∃ held, update nodes fresh (some order) entry.2 = some held ∧ held.price = entry.1 := by
    intro spot entry member
    obtain ⟨held, holds, priced⟩ := stored.priced spot entry member
    have apart : entry.2 ≠ fresh := by
      intro same
      cases unheld.symm.trans (same ▸ holds)
    exact ⟨held, by rwa [Function.update_of_ne apart], priced⟩
  intro spot entry member
  by_cases same : spot = place order
  · subst same
    rw [Function.update_self] at member
    rcases List.mem_cons.mp (perm.mem_iff.mp member) with rfl | member
    · exact ⟨order, Function.update_self _ _ _, rfl⟩
    · exact old _ entry member
  · rw [Function.update_of_ne same] at member
    exact old spot entry member

theorem Stored.change (stored : Stored nodes ordersById lists) (holds : nodes iter = some held) (named : order.id = held.id)
    (placed : place order = place held) (priced : order.price = held.price) :
    Stored (update nodes iter (some order)) ordersById lists := by
  refine ⟨stored.indexed.change holds named placed, ?_⟩
  intro spot entry member
  obtain ⟨found, finds, same⟩ := stored.priced spot entry member
  by_cases own : entry.2 = iter
  · rw [own] at finds ⊢
    cases holds.symm.trans finds
    exact ⟨order, Function.update_self _ _ _, priced.trans same⟩
  · exact ⟨found, by rwa [Function.update_of_ne own], same⟩

end Stored

variable {book next : Book Price} {order held : Order (Number Price)} {orders : OrdersList Price} {iter : OrderIter}

structure Valid (book : Book Price) : Prop where
  stored : Stored book.nodes book.ordersById (lists book)
  free : ∀ iter, book.unused ≤ iter → book.nodes iter = none

private theorem Valid.bijective (valid : Valid book) : Bijective book where
  oneToOne := valid.stored.indexed.oneToOne
  priced := valid.stored.priced

theorem initial_valid : Valid ({} : Book Price) := by
  have empty : ∀ spot, lists ({} : Book Price) spot = Map.empty := by
    intro spot
    cases spot with
    | mk symbol side => cases side <;> rfl
  have none : iterators ∘ lists ({} : Book Price) = fun _ => [] := by
    funext spot
    rw [Function.comp_apply, empty]
    rfl
  refine ⟨⟨?_, ?_⟩, fun _ _ => rfl⟩
  · rw [none]
    exact Indexed.initial
  · intro spot entry member
    rw [empty] at member
    exact absurd member List.not_mem_nil

theorem lists_setOrders : lists (book.setOrders order orders) = update (lists book) (place order) orders :=
  update_member SymbolOrders.getOrders SymbolOrders.setOrders SymbolOrders.getOrders_setOrders book.orderBook order.symbol order.side orders

/-- No order of a map but the one of the node stands at a price. -/
def Free (orders : OrdersList Price) (price : Number Price) (iter : OrderIter) : Prop :=
  ∀ entry ∈ orders.entries, entry.2 ≠ iter → ¬ Equivalent less price entry.1

private theorem eraseValue?_member (erased : (book.orders order).eraseValue? iter = some orders) :
    iter ∈ iterators (lists book (place order)) := by
  unfold Map.eraseValue? at erased
  split at erased
  next present => exact present
  next => cases erased

private theorem erase_place (valid : Valid book) (holds : book.nodes iter = some held) (erased : (book.orders order).eraseValue? iter = some orders) :
    place held = place order := valid.stored.indexed.place_eq holds (eraseValue?_member erased)

private theorem erase_stored (valid : Valid book) (known : book.ordersById order.id = some iter) (holds : book.nodes iter = some held)
    (erased : (book.orders order).eraseValue? iter = some orders) :
    Stored (update book.nodes iter none) (update book.ordersById order.id none) (update (lists book) (place order) orders) := by
  have same := erase_place valid holds erased
  have named := valid.stored.indexed.key_eq holds known
  obtain ⟨price, perm⟩ : ∃ price, (lists book (place order)).entries.Perm (⟨price, iter⟩ :: orders.entries) :=
    Map.eraseValue?_perm erased
  rw [← same] at perm ⊢
  rw [← named] at known ⊢
  exact valid.stored.leave holds known perm

private theorem mem_erased (valid : Valid book) (erased : (book.orders order).eraseValue? iter = some orders) (entry : (_ : Number Price) × OrderIter) :
    entry ∈ orders.entries ↔ entry.2 ≠ iter ∧ entry ∈ (book.orders order).entries := by
  obtain ⟨price, perm⟩ := Map.eraseValue?_perm erased
  have nodes : (iterators (lists book (place order))).Perm (iter :: iterators orders) := iterators_perm perm
  have distinct := valid.stored.indexed.once (place order)
  rw [Function.comp_apply, nodes.nodup_iff, List.nodup_cons] at distinct
  rw [perm.mem_iff, List.mem_cons]
  constructor
  · intro member
    refine ⟨?_, Or.inr member⟩
    rintro rfl
    exact distinct.1 (List.mem_map_of_mem member)
  · rintro ⟨other, rfl | member⟩
    · exact absurd rfl other
    · exact member

private theorem erased_free (valid : Valid book) (erased : (book.orders order).eraseValue? iter = some orders) (price : Number Price) :
    Free (book.orders order) price iter ↔ ∀ entry ∈ orders.entries, ¬ Equivalent less price entry.1 := by
  constructor
  · intro free entry member
    obtain ⟨other, stood⟩ := (mem_erased valid erased entry).mp member
    exact free entry stood other
  · intro free entry stood other
    exact free entry ((mem_erased valid erased entry).mpr ⟨other, stood⟩)

theorem erase_some (same : place held = place order) (member : iter ∈ iterators (lists book (place held))) :
    ∃ orders, (book.orders order).eraseValue? iter = some orders := by
  apply Map.eraseValue?_of_mem
  rw [same] at member
  exact member

theorem insert_valid (valid : Valid book)
    (clear : (∃ entry ∈ (book.orders order).entries, Equivalent less order.price entry.1) ∨ book.ordersById order.id = none) :
    Valid (book.insert order) := by
  unfold Book.insert
  cases placed : (book.orders order).tryEmplace order.price book.unused with
  | error taken => exact valid
  | ok orders =>
    obtain ⟨perm, fresh⟩ := Map.tryEmplace_ok placed
    have absent : book.ordersById order.id = none := by
      rcases clear with ⟨entry, member, same⟩ | absent
      · exact absurd same (fresh entry member)
      · exact absent
    constructor
    · have arrived := valid.stored.arrive (valid.free _ (Nat.le_refl _)) absent perm
      rw [← lists_setOrders] at arrived
      exact arrived
    · exact unused_arrive valid.free order

theorem insert_needs (valid : Valid book) (bijective : Bijective (book.insert order)) :
    (∃ entry ∈ (book.orders order).entries, Equivalent less order.price entry.1) ∨ book.ordersById order.id = none := by
  cases placed : (book.orders order).tryEmplace order.price book.unused with
  | error taken =>
    obtain ⟨entry, member, _, same⟩ := Map.tryEmplace_error placed
    exact Or.inl ⟨entry, member, same⟩
  | ok orders =>
    right
    have unheld := valid.free book.unused (Nat.le_refl _)
    obtain ⟨perm, _⟩ := Map.tryEmplace_ok placed
    have came : (iterators orders).Perm (book.unused :: iterators (lists book (place order))) := iterators_perm perm
    apply valid.stored.indexed.absent_of_arrived unheld came
    have next := bijective.oneToOne
    unfold Book.insert at next
    simp only [placed] at next
    rw [← Function.comp_update, ← lists_setOrders]
    exact next

def Names (book : Book Price) (order : Order (Number Price)) : Prop :=
  ∃ iter held, book.ordersById order.id = some iter ∧ book.nodes iter = some held ∧ held.symbol = order.symbol ∧ held.side = order.side

theorem cancel_valid (valid : Valid book) (names : Names book order) : ∃ next, book.cancel order = some next ∧ Valid next := by
  obtain ⟨iter, held, known, holds, symbol, side⟩ := names
  obtain ⟨_, also, _, member⟩ := valid.stored.indexed.found _ _ known
  cases holds.symm.trans also
  obtain ⟨orders, erased⟩ := erase_some (Prod.ext symbol side : place held = place order) member
  refine ⟨{ book.setOrders order orders with
      ordersById := update book.ordersById order.id none
      nodes := update book.nodes iter none }, ?_, ?_⟩
  · simp only [Book.cancel, known, erased, Option.bind_eq_bind, Option.bind_some, Option.pure_def]
  constructor
  · have left := erase_stored valid known holds erased
    rw [← lists_setOrders] at left
    exact left
  · exact unused_leave valid.free iter

theorem cancel_needs (valid : Valid book) (cancelled : book.cancel order = some next) : Names book order := by
  simp only [Book.cancel, Option.bind_eq_bind, Option.bind_eq_some_iff] at cancelled
  obtain ⟨iter, known, orders, erased, _⟩ := cancelled
  obtain ⟨held, holds, _⟩ := valid.stored.indexed.found _ _ known
  have same := erase_place valid holds erased
  exact ⟨iter, held, known, holds, congrArg Prod.fst same, congrArg Prod.snd same⟩

/-- An amend of an id that the book has; if it moves the order, then at the symbol and on
the side where it is and to a price that no other order there has. -/
def Moves (book : Book Price) (order : Order (Number Price)) : Prop :=
  ∃ iter held, book.ordersById order.id = some iter ∧ book.nodes iter = some held ∧
    (differs order.price held.price → held.symbol = order.symbol ∧ held.side = order.side ∧ Free (book.orders order) order.price iter)

theorem amend_valid (valid : Valid book) (moves : Moves book order) : ∃ next, book.amend order = some next ∧ Valid next := by
  obtain ⟨iter, held, known, holds, free⟩ := moves
  obtain ⟨_, also, named, member⟩ := valid.stored.indexed.found _ _ known
  cases holds.symm.trans also
  by_cases changed : differs order.price held.price
  · obtain ⟨symbol, side, free⟩ := free changed
    obtain ⟨orders, erased⟩ := erase_some (Prod.ext symbol side : place held = place order) member
    have left := erase_stored valid known holds erased
    cases placed : orders.tryEmplace order.price book.unused with
    | error taken =>
      obtain ⟨entry, member, _, same⟩ := Map.tryEmplace_error placed
      exact absurd same ((erased_free valid erased order.price).mp free entry member)
    | ok moved =>
      obtain ⟨perm, _⟩ := Map.tryEmplace_ok placed
      refine ⟨{ book.setOrders order moved with
          ordersById := update book.ordersById order.id (some book.unused)
          nodes := update (update book.nodes iter none) book.unused (some order)
          unused := book.unused + 1 }, ?_, ?_⟩
      · simp only [Book.amend, known, holds, changed, erased, placed, Option.bind_eq_bind, Option.bind_some, Option.pure_def, if_true]
      have freed := unused_leave valid.free iter
      constructor
      · have came : moved.entries.Perm
            (⟨order.price, book.unused⟩ :: (update (lists book) (place order) orders (place order)).entries) := by
          rw [Function.update_self]
          exact perm
        have arrived := left.arrive (freed _ (Nat.le_refl _)) (Function.update_self _ _ _) came
        rw [Function.update_idem, Function.update_idem, ← lists_setOrders] at arrived
        exact arrived
      · exact unused_arrive freed order
  · refine ⟨{ book with nodes := update book.nodes iter (some { held with volume := order.volume }) }, ?_, ?_⟩
    · simp only [Book.amend, known, holds, changed, Option.bind_eq_bind, Option.bind_some, Option.pure_def, Bool.false_eq_true, if_false]
    constructor
    · exact valid.stored.change holds rfl rfl rfl
    · exact unused_change valid.free holds _

/-- The node that the index is given when the price is taken is another order's. -/
private theorem amend_needs (valid : Valid book) (amended : book.amend order = some next) (bijective : Bijective next) : Moves book order := by
  simp only [Book.amend, Option.bind_eq_bind, Option.bind_eq_some_iff] at amended
  obtain ⟨iter, known, held, holds, amended⟩ := amended
  refine ⟨iter, held, known, holds, fun changed => ?_⟩
  simp only [changed, if_true, Option.bind_eq_some_iff] at amended
  obtain ⟨orders, erased, amended⟩ := amended
  have same := erase_place valid holds erased
  refine ⟨congrArg Prod.fst same, congrArg Prod.snd same, (erased_free valid erased order.price).mpr ?_⟩
  cases placed : orders.tryEmplace order.price book.unused with
  | ok moved => exact (Map.tryEmplace_ok placed).2
  | error taken =>
    simp only [placed, Option.pure_def, Option.some.injEq] at amended
    subst amended
    obtain ⟨entry, member, rfl, _⟩ := Map.tryEmplace_error placed
    obtain ⟨other, stood⟩ := (mem_erased valid erased entry).mp member
    have listed : entry.2 ∈ iterators (lists book (place order)) := List.mem_map_of_mem stood
    exact absurd (valid.stored.indexed.eq_of_given known listed (Function.update_of_ne other _ _) bijective.oneToOne) other

/-- An insert comes at a price that is taken or with an id that no order has, and the
other operations mean the order that has the id. -/
def Safe (book : Book Price) (order : Order (Number Price)) : Prop :=
  match order.operation with
  | .insert => (∃ entry ∈ (book.orders order).entries, Equivalent less order.price entry.1) ∨ book.ordersById order.id = none
  | .cancel => Names book order
  | .amend => Moves book order

private theorem process_valid (valid : Valid book) (safe : Safe book order) : ∃ next, book.processRawOrder2 order = some next ∧ Valid next := by
  unfold Safe at safe
  unfold Book.processRawOrder2
  cases operation : order.operation with
  | insert =>
    rw [operation] at safe
    exact ⟨_, rfl, insert_valid valid safe⟩
  | cancel =>
    rw [operation] at safe
    exact cancel_valid valid safe
  | amend =>
    rw [operation] at safe
    exact amend_valid valid safe

private theorem process_needs (valid : Valid book) (moved : book.processRawOrder2 order = some next) (bijective : Bijective next) :
    Safe book order := by
  unfold Safe
  unfold Book.processRawOrder2 at moved
  cases operation : order.operation with
  | insert =>
    rw [operation] at moved
    cases moved
    exact insert_needs valid bijective
  | cancel =>
    rw [operation] at moved
    exact cancel_needs valid moved
  | amend =>
    rw [operation] at moved
    exact amend_needs valid moved bijective

/-- A cancel or an amend of an unknown id leaves the book as it was. -/
def LeavesUnknown (stream : List (Order (Number Price))) : Prop :=
  ∀ before order after book, stream = before ++ order :: after → before.foldlM Book.processRawOrder2 {} = some book →
    order.operation ≠ .insert → book.ordersById order.id = none → book.processRawOrder2 order = some book

private theorem safe_known (safe : Safe book order) (other : order.operation ≠ .insert) : book.ordersById order.id ≠ none := by
  unfold Safe at safe
  cases operation : order.operation with
  | insert => exact absurd operation other
  | cancel =>
    rw [operation] at safe
    obtain ⟨iter, _, known, _⟩ := safe
    exact fun absent => nomatch absent.symm.trans known
  | amend =>
    rw [operation] at safe
    obtain ⟨iter, _, known, _⟩ := safe
    exact fun absent => nomatch absent.symm.trans known

/-- Index and entries are a bijection in every state of a run, and unknown ids change nothing, exactly
where every operation means the order that has its id and moves it to a free price only. -/
theorem book_bijective_iff (stream : List (Order (Number Price))) :
    ((∀ before, before <+: stream → ∃ book, before.foldlM Book.processRawOrder2 {} = some book ∧ Bijective book) ∧
        LeavesUnknown stream) ↔
      Runs.AtEveryStepM Book.processRawOrder2 Safe {} stream := by
  have shows : ∀ (before : List (Order (Number Price))) (book : Book Price), Valid book →
      ∃ shown, some book = some shown ∧ Bijective shown :=
    fun _ book valid => ⟨book, rfl, valid.bijective⟩
  have index : (∀ before, before <+: stream → ∃ book, before.foldlM Book.processRawOrder2 {} = some book ∧ Bijective book) ↔
      Runs.AtEveryStepM Book.processRawOrder2 Safe {} stream := by
    apply Runs.history_iff (fun _ result => ∃ book, result = some book ∧ Bijective book) shows
    · intro _ order book _ _ valid safe
      exact process_valid valid safe
    · intro _ order book _ _ valid good
      obtain ⟨next, moved, bijective⟩ := good
      exact process_needs valid moved bijective
    · exact initial_valid
  constructor
  · intro both
    exact index.mp both.1
  · intro safe
    refine ⟨index.mpr safe, ?_⟩
    intro before order after book split ran other absent
    have now := (Runs.atEveryStepM_iff stream).mp safe before order after book split ran
    exact absurd absent (safe_known now other)

/-- The second order is put at 13 and the first one amended to it. The first is gone, and its id
leads to the second. -/
def amendedOnto : List (Order (Number Nat)) :=
  [⟨[], [84], [49], 100, some 12, .insert, .buy⟩, ⟨[], [84], [50], 37, some 13, .insert, .buy⟩, ⟨[], [84], [49], 100, some 13, .amend, .buy⟩]

theorem book_bijective_taken_price : ¬ ∀ stream : List (Order (Number Nat)),
    (∀ before, before <+: stream → ∃ book, before.foldlM Book.processRawOrder2 {} = some book ∧ Bijective book) ∧
      LeavesUnknown stream := by
  intro all
  obtain ⟨book, ran, bijective⟩ := (all amendedOnto).1 _ List.prefix_rfl
  have first : (amendedOnto.foldlM Book.processRawOrder2 {}).bind (·.ordersById [49]) = some 1 := by decide
  have held : (amendedOnto.foldlM Book.processRawOrder2 {}).bind (·.nodes 1) = some ⟨[], [84], [50], 37, some 13, .insert, .buy⟩ := by decide
  rw [ran] at first held
  obtain ⟨_, order, holds, named⟩ := bijective.oneToOne.found [49] 1 first
  cases holds.symm.trans held
  cases named

end FinanceTech.Proofs.BookIndex
