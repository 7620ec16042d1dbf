import FinanceTech.OrderGateway
import FinanceTech.Proofs.OrderRuns

/-! The order manager keeps its books: ids, stored orders and gateway calls agree
over every run, as long as the ids do not wrap around. -/

namespace FinanceTech.Proofs.OrderBookkeeping
open List Library Trading OrderRuns

/-- The order that a request becomes under an id. -/
def newOrder (orderId : OrderId) (request : OrderRequest) : Order := {
  clientOrderId := orderId
  instrument := request.instrument
  side := request.side
  type := request.type
  price := request.price
  quantity := request.quantity
  status := .new }

/-- What a stored order was accepted for, and no report changes. -/
structure SameTerms (first second : Order) : Prop where
  clientOrderId : first.clientOrderId = second.clientOrderId
  instrument : first.instrument = second.instrument
  side : first.side = second.side
  type : first.type = second.type
  price : first.price = second.price
  quantity : first.quantity = second.quantity

def sentOrder : GatewayCall → Option Order
  | .send order => some order
  | .cancel _ => none

def idAt (place : Nat) : OrderId := UInt64.ofNat (place + 1)

structure Bookkeeping (gateway : OrderGateway) : Prop where
  ids : gateway.accepted.map Prod.fst = (range gateway.accepted.length).map idAt
  next : gateway.manager.nextOrderId = idAt gateway.accepted.length
  stored : ∀ id request, (id, request) ∈ gateway.accepted →
    ∃ order, gateway.manager.orders.find? id = some order ∧ SameTerms (newOrder id request) order
  only : ∀ id order, gateway.manager.orders.find? id = some order → id ∈ gateway.accepted.map Prod.fst
  sends : gateway.calls.filterMap sentOrder = gateway.accepted.map fun entry => newOrder entry.1 entry.2
  cancels : ∀ before id after, gateway.calls = before ++ .cancel id :: after →
    ∃ order, GatewayCall.send order ∈ before ∧ order.clientOrderId = id

theorem SameTerms.refl (order : Order) : SameTerms order order := ⟨rfl, rfl, rfl, rfl, rfl, rfl⟩

theorem SameTerms.trans {first second third : Order} (one : SameTerms first second) (two : SameTerms second third) :
    SameTerms first third :=
  ⟨one.clientOrderId.trans two.clientOrderId, one.instrument.trans two.instrument, one.side.trans two.side,
    one.type.trans two.type, one.price.trans two.price, one.quantity.trans two.quantity⟩

private theorem reported_terms (order : Order) (report : ExecutionReport) : SameTerms order (reported order report) :=
  ⟨rfl, rfl, rfl, rfl, rfl, rfl⟩

/-- With its next id unused, an order manager either refuses a request, and only
remembers why, or stores and sends the request's order under that id. -/
theorem createOrder_outcome {manager : OrderManager} (unused : manager.orders.find? manager.nextOrderId = none)
    (request : OrderRequest) :
    (∃ error riskManager, manager.createOrder request = (.error error, { manager with riskManager })) ∨
      ∃ riskManager, manager.createOrder request = (.ok manager.nextOrderId, { manager with
        riskManager
        nextOrderId := manager.nextOrderId + 1
        orders := manager.orders.insertOrAssign manager.nextOrderId (newOrder manager.nextOrderId request)
        sent := manager.sent ++ [newOrder manager.nextOrderId request] }) := by
  rw [OrderManager.createOrder]
  split
  next => exact .inl ⟨_, manager.riskManager, rfl⟩
  next =>
    dsimp only
    split
    next => exact .inl ⟨_, _, rfl⟩
    next =>
      have free : ¬ (manager.orders.find? manager.nextOrderId).isSome = true := by
        rw [unused]
        exact Bool.false_ne_true
      rw [if_neg free]
      exact .inr ⟨_, rfl⟩

variable {gateway : OrderGateway}

theorem toNat_idAt {place : Nat} (small : place + 1 < 2 ^ 64) : (idAt place).toNat = place + 1 := by
  rw [idAt, UInt64.toNat_ofNat']
  exact Nat.mod_eq_of_lt small

theorem Bookkeeping.unused (books : Bookkeeping gateway) (small : gateway.accepted.length + 1 < 2 ^ 64) :
    gateway.manager.orders.find? gateway.manager.nextOrderId = none := by
  rw [books.next]
  by_contra stored
  obtain ⟨order, found⟩ := Option.ne_none_iff_exists'.mp stored
  have known := books.only _ _ found
  rw [books.ids] at known
  obtain ⟨place, inside, same⟩ := mem_map.mp known
  have before := mem_range.mp inside
  have numbers := congrArg UInt64.toNat same
  rw [toNat_idAt small, toNat_idAt (by omega)] at numbers
  omega

private theorem start_bookkeeping (riskManager : RiskManager) (position : Position) : Bookkeeping (OrderGateway.start riskManager position) := by
  refine ⟨rfl, rfl, fun id request member => absurd member not_mem_nil, ?_, rfl, ?_⟩
  · intro id order found
    have empty : (SortedMap.Map.empty : Orders).find? id = none := SortedMap.Map.find?_empty id
    exact absurd (empty.symm.trans found) (Option.some_ne_none order).symm
  · intro before id after split
    exact absurd split (by simp [OrderGateway.start])

theorem createOrder_calls (unused : gateway.manager.orders.find? gateway.manager.nextOrderId = none) (request : OrderRequest) :
    (∃ error riskManager, gateway.createOrder request =
        (.error error, { gateway with manager := { gateway.manager with riskManager } })) ∨
      ∃ riskManager, gateway.createOrder request = (.ok gateway.manager.nextOrderId, {
        manager := { gateway.manager with
          riskManager
          nextOrderId := gateway.manager.nextOrderId + 1
          orders := gateway.manager.orders.insertOrAssign gateway.manager.nextOrderId
            (newOrder gateway.manager.nextOrderId request)
          sent := gateway.manager.sent ++ [newOrder gateway.manager.nextOrderId request] }
        calls := gateway.calls ++ [.send (newOrder gateway.manager.nextOrderId request)]
        accepted := gateway.accepted ++ [(gateway.manager.nextOrderId, request)] }) := by
  rcases createOrder_outcome unused request with ⟨error, riskManager, refused⟩ | ⟨riskManager, accepted⟩
  · left
    refine ⟨error, riskManager, ?_⟩
    rw [OrderGateway.createOrder, refused]
    simp only [drop_length, map_nil, append_nil]
  · right
    refine ⟨riskManager, ?_⟩
    rw [OrderGateway.createOrder, accepted]
    simp only [drop_left, map_cons, map_nil]

/-- An item of a list with one more at its end is that one or was there before. -/
theorem split_concat {α : Type} {items before after : List α} {item last : α} (split : items ++ [last] = before ++ item :: after) :
    before = items ∧ item = last ∨ ∃ rest, items = before ++ item :: rest := by
  rcases eq_nil_or_concat' after with rfl | ⟨rest, other, rfl⟩
  · obtain ⟨same, ends⟩ := append_inj' split rfl
    exact .inl ⟨same.symm, (cons.inj ends).1.symm⟩
  · rw [← cons_append, ← append_assoc] at split
    exact .inr ⟨rest, (append_inj' split rfl).1⟩

/-- Stored orders stay stored on the same terms. -/
def Keeps (gateway next : OrderGateway) : Prop :=
  ∀ id order, gateway.manager.orders.find? id = some order →
    ∃ later, next.manager.orders.find? id = some later ∧ SameTerms order later

theorem Keeps.refl (gateway : OrderGateway) : Keeps gateway gateway := fun _ order found => ⟨order, found, .refl order⟩

theorem Keeps.trans {middle next : OrderGateway} (one : Keeps gateway middle) (two : Keeps middle next) : Keeps gateway next := by
  intro id order found
  obtain ⟨between, there, first⟩ := one id order found
  obtain ⟨later, last, second⟩ := two id between there
  exact ⟨later, last, first.trans second⟩

/-- A step that keeps the books and the stored orders. -/
structure Steps (gateway next : OrderGateway) : Prop where
  books : Bookkeeping next
  keeps : Keeps gateway next

private theorem create_steps (books : Bookkeeping gateway) (small : gateway.accepted.length + 1 < 2 ^ 64) (request : OrderRequest) :
    Steps gateway (gateway.step (.create request)) := by
  have unused := books.unused small
  rw [OrderGateway.step]
  rcases createOrder_calls unused request with ⟨error, riskManager, refused⟩ | ⟨riskManager, accepted⟩
  · rw [refused]
    exact ⟨⟨books.ids, books.next, books.stored, books.only, books.sends, books.cancels⟩, .refl gateway⟩
  · rw [accepted]
    have kept : ∀ id order, gateway.manager.orders.find? id = some order →
        (gateway.manager.orders.insertOrAssign gateway.manager.nextOrderId
          (newOrder gateway.manager.nextOrderId request)).find? id = some order := by
      intro id order found
      have different : id ≠ gateway.manager.nextOrderId := by
        rintro rfl
        exact absurd (unused.symm.trans found) (Option.some_ne_none order).symm
      rw [SortedMap.Map.find?_insertOrAssign, if_neg different]
      exact found
    refine ⟨⟨?_, ?_, ?_, ?_, ?_, ?_⟩, fun id order found => ⟨order, kept id order found, .refl order⟩⟩
    · simp only [map_append, length_append, map_cons, map_nil, length_cons, length_nil, zero_add, range_succ, books.ids, books.next]
    · simp only [books.next, length_append, length_cons, length_nil, zero_add]
      rw [idAt, idAt, UInt64.ofNat_add (_ + 1)]
      rfl
    · intro id other member
      rcases mem_append.mp member with member | member
      · obtain ⟨order, found, terms⟩ := books.stored id other member
        exact ⟨order, kept id order found, terms⟩
      · obtain ⟨rfl, rfl⟩ := Prod.mk.inj (mem_singleton.mp member)
        exact ⟨_, by rw [SortedMap.Map.find?_insertOrAssign, if_pos rfl], .refl _⟩
    · intro id order found
      rw [SortedMap.Map.find?_insertOrAssign] at found
      rw [map_append, mem_append]
      split at found
      next own => exact .inr (mem_singleton.mpr own)
      next => exact .inl (books.only id order found)
    · rw [filterMap_append, books.sends, map_append]
      rfl
    · intro before id after split
      rcases split_concat split with ⟨-, ends⟩ | ⟨rest, inside⟩
      · cases ends
      · exact books.cancels before id rest inside

private theorem cancel_steps (books : Bookkeeping gateway) (orderId : OrderId) : Steps gateway (gateway.step (.cancel orderId)) := by
  rw [OrderGateway.step, OrderGateway.cancel]
  cases found : gateway.manager.orders.find? orderId with
  | none => exact ⟨books, .refl gateway⟩
  | some order =>
    refine ⟨⟨books.ids, books.next, books.stored, books.only, ?_, ?_⟩, .refl gateway⟩
    · rw [filterMap_append, books.sends]
      exact append_nil _
    · intro before id after split
      rcases split_concat split with ⟨rfl, ends⟩ | ⟨rest, inside⟩
      · obtain rfl := GatewayCall.cancel.inj ends
        obtain ⟨⟨known, request⟩, member, rfl⟩ := mem_map.mp (books.only _ _ found)
        have sent : newOrder known request ∈ gateway.calls.filterMap sentOrder := by
          rw [books.sends]
          exact mem_map.mpr ⟨_, member, rfl⟩
        obtain ⟨call, inside, order'⟩ := mem_filterMap.mp sent
        cases call with
        | send order =>
          obtain rfl := Option.some.inj order'
          exact ⟨_, inside, rfl⟩
        | cancel other => cases order'
      · exact books.cancels before id rest inside

private theorem report_steps (books : Bookkeeping gateway) (report : ExecutionReport) : Steps gateway (gateway.step (.report report)) := by
  rw [OrderGateway.step, OrderGateway.applyExecution]
  cases found : gateway.manager.orders.find? report.clientOrderId with
  | none =>
    rw [applyExecution_unknown found]
    exact ⟨books, .refl gateway⟩
  | some order =>
    have keeps : ∀ id known, gateway.manager.orders.find? id = some known → ∃ later,
        (gateway.manager.orders.insertOrAssign report.clientOrderId (reported order report)).find? id = some later ∧
          SameTerms known later := by
      intro id known there
      rw [SortedMap.Map.find?_insertOrAssign]
      split
      next own =>
        rw [own, found] at there
        obtain rfl := Option.some.inj there
        exact ⟨_, rfl, reported_terms order report⟩
      next => exact ⟨known, there, .refl known⟩
    rw [applyExecution_known found]
    refine ⟨⟨books.ids, books.next, ?_, ?_, books.sends, books.cancels⟩, keeps⟩
    · intro id request member
      obtain ⟨known, there, terms⟩ := books.stored id request member
      obtain ⟨later, last, same⟩ := keeps id known there
      exact ⟨later, last, terms.trans same⟩
    · intro id known there
      rw [SortedMap.Map.find?_insertOrAssign] at there
      split at there
      next own => exact books.only id order (own ▸ found)
      next => exact books.only id known there

private theorem step_steps (books : Bookkeeping gateway) (small : gateway.accepted.length + 1 < 2 ^ 64) (operation : GatewayOperation) :
    Steps gateway (gateway.step operation) := by
  cases operation with
  | create request => exact create_steps books small request
  | cancel orderId => exact cancel_steps books orderId
  | report report => exact report_steps books report

private theorem step_grows (gateway : OrderGateway) (operation : GatewayOperation) :
    gateway.accepted <+: (gateway.step operation).accepted := by
  cases operation with
  | create request =>
    simp only [OrderGateway.step, OrderGateway.createOrder]
    split
    · exact prefix_append _ _
    · exact prefix_rfl
  | cancel orderId =>
    rw [OrderGateway.step, OrderGateway.cancel]
    split <;> exact prefix_rfl
  | report report => exact prefix_rfl

theorem run_grows (gateway : OrderGateway) (operations : List GatewayOperation) :
    gateway.accepted <+: (gateway.run operations).accepted := by
  induction operations generalizing gateway with
  | nil => exact prefix_rfl
  | cons operation rest ih => exact (step_grows gateway operation).trans (ih _)

theorem run_steps (books : Bookkeeping gateway) {operations : List GatewayOperation}
    (small : (gateway.run operations).accepted.length + 1 < 2 ^ 64) : Steps gateway (gateway.run operations) := by
  induction operations generalizing gateway with
  | nil => exact ⟨books, .refl gateway⟩
  | cons operation rest ih =>
    have here := (run_grows gateway (operation :: rest)).length_le
    have first := step_steps books (by omega) operation
    have later := ih first.books small
    exact ⟨later.books, first.keeps.trans later.keeps⟩

private theorem Bookkeeping.sent_once (books : Bookkeeping gateway) (small : gateway.accepted.length + 1 < 2 ^ 64) :
    (gateway.calls.filterMap sentOrder).Nodup := by
  have ids : (gateway.calls.filterMap sentOrder).map Order.clientOrderId = (range gateway.accepted.length).map idAt := by
    rw [books.sends, map_map, ← books.ids]
    rfl
  apply Nodup.of_map Order.clientOrderId
  rw [ids]
  refine nodup_range.map_on fun first inside second there same => ?_
  have one := mem_range.mp inside
  have two := mem_range.mp there
  have numbers := congrArg UInt64.toNat same
  rw [toNat_idAt (by omega), toNat_idAt (by omega)] at numbers
  omega

/-- What a refused request leaves as it was. -/
structure Untouched (gateway next : OrderGateway) : Prop where
  orders : next.manager.orders = gateway.manager.orders
  nextOrderId : next.manager.nextOrderId = gateway.manager.nextOrderId
  position : next.manager.position = gateway.manager.position
  calls : next.calls = gateway.calls

private theorem createOrder_refused (books : Bookkeeping gateway) (small : gateway.accepted.length + 1 < 2 ^ 64) {request : OrderRequest}
    {error : OrderCreationError} (refused : (gateway.createOrder request).1 = .error error) :
    Untouched gateway (gateway.createOrder request).2 := by
  rcases createOrder_calls (books.unused small) request with ⟨other, riskManager, same⟩ | ⟨riskManager, same⟩
  · rw [same]
    exact ⟨rfl, rfl, rfl, rfl⟩
  · rw [same] at refused
    cases refused

/-- While fewer orders are accepted than there are ids, the books agree in every
reached state: the accepted orders have the ids from one on and are stored and
sent once on the terms of their requests, each before any cancel of its id, a
stored order keeps its terms, only stored orders are cancelled, and a refused
request leaves no trace but its reason. -/
theorem run_bookkeeping (riskManager : RiskManager) (position : Position) (operations : List GatewayOperation)
    (few : ((OrderGateway.start riskManager position).run operations).accepted.length < 2 ^ 64 - 1) :
    let gateway := (OrderGateway.start riskManager position).run operations
    Bookkeeping gateway ∧ (gateway.calls.filterMap sentOrder).Nodup ∧
      (∀ before, before <+: operations → Keeps ((OrderGateway.start riskManager position).run before) gateway) ∧
      (∀ orderId, gateway.manager.orders.find? orderId = none → gateway.cancel orderId = (false, gateway)) ∧
      ∀ request error, (gateway.createOrder request).1 = .error error → Untouched gateway (gateway.createOrder request).2 := by
  have small : ((OrderGateway.start riskManager position).run operations).accepted.length + 1 < 2 ^ 64 := by omega
  have books := start_bookkeeping riskManager position
  have reached := run_steps books small
  refine ⟨reached.books, reached.books.sent_once small, ?_, ?_, fun request error => createOrder_refused reached.books small⟩
  · rintro before ⟨after, rfl⟩
    have split : (OrderGateway.start riskManager position).run (before ++ after) =
        ((OrderGateway.start riskManager position).run before).run after := foldl_append
    rw [split] at small ⊢
    have here := (run_grows ((OrderGateway.start riskManager position).run before) after).length_le
    have middle := run_steps books (show ((OrderGateway.start riskManager position).run before).accepted.length + 1 < 2 ^ 64 by omega)
    exact (run_steps middle.books small).keeps
  · intro orderId unknown
    rw [OrderGateway.cancel, unknown]

/-- A refused request, two accepted ones, a fill and two cancels. -/
def busy : List GatewayOperation := [
  .create { instrument := 0, side := .buy, type := .limit, price := ⟨100⟩, quantity := ⟨5⟩ },
  .create { instrument := 1, side := .buy, type := .limit, price := ⟨100⟩, quantity := ⟨5⟩ },
  .cancel 1,
  .create { instrument := 1, side := .sell, type := .limit, price := ⟨110⟩, quantity := ⟨3⟩ },
  .report { clientOrderId := 1, execType := .trade, status := .filled, price := ⟨100⟩, quantity := ⟨5⟩, filledQuantity := ⟨5⟩ },
  .cancel 7]

theorem run_bookkeeping_busy :
    let gateway := (OrderGateway.start {} {}).run busy
    Bookkeeping gateway ∧ (gateway.calls.filterMap sentOrder).Nodup ∧
      (∀ before, before <+: busy → Keeps ((OrderGateway.start {} {}).run before) gateway) ∧
      (∀ orderId, gateway.manager.orders.find? orderId = none → gateway.cancel orderId = (false, gateway)) ∧
      ∀ request error, (gateway.createOrder request).1 = .error error → Untouched gateway (gateway.createOrder request).2 :=
  run_bookkeeping {} {} busy (by decide)

end FinanceTech.Proofs.OrderBookkeeping
