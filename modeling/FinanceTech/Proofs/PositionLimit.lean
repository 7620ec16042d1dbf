import FinanceTech.Proofs.OrderCreation
import Mathlib.Algebra.BigOperators.Group.List.Basic
import Mathlib.Algebra.Order.BigOperators.Group.List
import Mathlib.Algebra.Order.Group.Abs

/-! How far a position can leave its limit. The risk check sees the position and
not the orders that are still open, so what was open on an order's side when it
was accepted comes on top of the limit, and nothing else does. -/

namespace FinanceTech.Proofs.PositionLimit
open Library Trading RiskManager OrderCreation

inductive Event where
  | create (request : OrderRequest)
  | trade (report : ExecutionReport)

/-- The order manager with two records about it: how much of each order has
been traded, and the largest quantity that was open on the side of an order
when that order was accepted. -/
structure Session where
  manager : OrderManager
  traded : OrderId → Int := fun _ => 0
  overlap : Int := 0

namespace Session

/-- What the accepted orders of a side can still trade. -/
def unfilled (session : Session) (side : Side) : Int :=
  (session.manager.orders.entries.map fun entry =>
    if entry.2.side = side then entry.2.quantity.raw.toInt - session.traded entry.1 else 0).sum

def step (session : Session) : Event → Session
  | .create request =>
    let (result, manager) := session.manager.createOrder request
    { session with
      manager
      overlap := match result with
        | .ok _ => max session.overlap (session.unfilled request.side)
        | .error _ => session.overlap }
  | .trade report =>
    { session with
      manager := (session.manager.applyExecution report).2
      traded := Function.update session.traded report.clientOrderId
        (session.traded report.clientOrderId + report.quantity.raw.toInt) }

def run (session : Session) (events : List Event) : Session := events.foldl step session

/-- A report an honest venue can send: for an accepted order, on its side, for
a positive part of what it has not traded yet. -/
structure Honest (session : Session) (report : ExecutionReport) : Prop where
  execType : report.execType = .trade
  positive : 0 < report.quantity.raw.toInt
  accepted : ∃ order, session.manager.orders.find? report.clientOrderId = some order ∧ report.side = order.side ∧
    session.traded report.clientOrderId + report.quantity.raw.toInt ≤ order.quantity.raw.toInt

def HonestRun (session : Session) : List Event → Prop
  | [] => True
  | .create request :: rest => HonestRun (session.step (.create request)) rest
  | .trade report :: rest => session.Honest report ∧ HonestRun (session.step (.trade report)) rest

def position (session : Session) : Int := session.manager.position.currentQuantity.toInt

end Session

/-- What every step keeps. With nothing left open, the position is within the
limit and the overlap; what is open can only use up the distance to them. -/
structure Bounded (limit : Int) (session : Session) : Prop where
  limits : session.manager.riskManager.limits.maxPositionQuantity.raw.toInt = limit
  untouched : ∀ id, session.manager.orders.find? id = none → session.traded id = 0
  remaining : ∀ id order, session.manager.orders.find? id = some order → session.traded id ≤ order.quantity.raw.toInt
  overlap : 0 ≤ session.overlap
  long : limit + session.overlap < 2 ^ 63 → session.position + session.unfilled .buy ≤ limit + session.overlap
  short : limit + session.overlap < 2 ^ 63 → -(limit + session.overlap) ≤ session.position - session.unfilled .sell

variable {limit : Int} {session : Session}

theorem unfilled_nonneg (remaining : ∀ id order, session.manager.orders.find? id = some order →
    session.traded id ≤ order.quantity.raw.toInt) (side : Side) : 0 ≤ session.unfilled side := by
  apply List.sum_nonneg
  intro left member
  obtain ⟨entry, present, rfl⟩ := List.mem_map.mp member
  have kept := remaining entry.1 entry.2 (SortedMap.Map.find?_eq_some.mpr present)
  split <;> omega

private theorem unfilled_created {request : OrderRequest} {order : Order} {next : Session}
    (created : Created session.manager request order next.manager) (traded : next.traded = session.traded)
    (untouched : session.traded order.clientOrderId = 0) (side : Side) :
    next.unfilled side = session.unfilled side + if request.side = side then request.quantity.raw.toInt else 0 := by
  have perm := SortedMap.Map.insertOrAssign_fresh created.fresh order
  rw [← created.orders] at perm
  rw [Session.unfilled, (perm.map _).sum_eq, List.map_cons, List.sum_cons, traded, untouched, created.side, created.quantity,
    Session.unfilled, sub_zero, add_comm]

private theorem unfilled_reported {report : ExecutionReport} {order reported : Order} {next : Session}
    (found : session.manager.orders.find? report.clientOrderId = some order)
    (orders : next.manager.orders = session.manager.orders.insertOrAssign report.clientOrderId reported)
    (kept : reported.side = order.side) (same : reported.quantity = order.quantity)
    (traded : next.traded = Function.update session.traded report.clientOrderId
      (session.traded report.clientOrderId + report.quantity.raw.toInt)) (side : Side) :
    next.unfilled side = session.unfilled side - if order.side = side then report.quantity.raw.toInt else 0 := by
  obtain ⟨rest, before, after⟩ := SortedMap.Map.insertOrAssign_perm found reported
  rw [← orders] at after
  have unique := (List.perm_nodupKeys before).mp (session.manager.orders.sorted.nodupKeys _)
  have absent := List.notMem_keys_of_nodupKeys_cons unique
  have others : ∀ entry ∈ rest, next.traded entry.1 = session.traded entry.1 := by
    intro entry member
    rw [traded]
    apply Function.update_of_ne
    intro equal
    have inside : entry.1 ∈ rest.keys := List.mem_map_of_mem member
    exact absent (equal ▸ inside)
  have rests : (rest.map fun entry => if entry.2.side = side then entry.2.quantity.raw.toInt - next.traded entry.1 else 0) =
      rest.map fun entry => if entry.2.side = side then entry.2.quantity.raw.toInt - session.traded entry.1 else 0 := by
    apply List.map_congr_left
    intro entry member
    rw [others entry member]
  have moved : next.traded report.clientOrderId = session.traded report.clientOrderId + report.quantity.raw.toInt := by
    rw [traded, Function.update_self]
  rw [Session.unfilled, Session.unfilled, (after.map _).sum_eq, (before.map _).sum_eq, List.map_cons, List.map_cons,
    List.sum_cons, List.sum_cons, rests, moved, kept, same]
  dsimp only
  split <;> omega

theorem Bounded.same {next : Session} (bounded : Bounded limit session)
    (limits : next.manager.riskManager.limits = session.manager.riskManager.limits)
    (orders : next.manager.orders = session.manager.orders) (traded : next.traded = session.traded)
    (overlap : next.overlap = session.overlap) (position : next.position = session.position) : Bounded limit next := by
  have unfilled : ∀ side, next.unfilled side = session.unfilled side := by
    intro side
    unfold Session.unfilled
    rw [orders, traded]
  refine ⟨limits ▸ bounded.limits, ?_, ?_, overlap ▸ bounded.overlap, ?_, ?_⟩
  · rw [orders, traded]
    exact bounded.untouched
  · rw [orders, traded]
    exact bounded.remaining
  · rw [overlap, position, unfilled]
    exact bounded.long
  · rw [overlap, position, unfilled]
    exact bounded.short

theorem Bounded.within {request : OrderRequest} (bounded : Bounded limit session) (positive : 0 < limit)
    (passes : Passes session.manager.riskManager.limits session.manager.position request) :
    |session.position + positionDelta request| ≤ limit := by
  have enabled : session.manager.riskManager.limits.maxPositionQuantity ≠ 0 := by
    intro zero
    have none := bounded.limits
    rw [zero] at none
    exact absurd positive (none ▸ by decide)
  exact bounded.limits ▸ passes.positionQuantity enabled

section Created

variable {request : OrderRequest} {order : Order} {next : Session}

private theorem Bounded.created_records (bounded : Bounded limit session)
    (created : Created session.manager request order next.manager) (traded : next.traded = session.traded) :
    (∀ id, next.manager.orders.find? id = none → next.traded id = 0) ∧
      ∀ id other, next.manager.orders.find? id = some other → next.traded id ≤ other.quantity.raw.toInt := by
  have find : ∀ id, next.manager.orders.find? id =
      if id = order.clientOrderId then some order else session.manager.orders.find? id := by
    intro id
    rw [created.orders, SortedMap.Map.find?_insertOrAssign]
  have quantity := created.wellFormed.quantity
  rw [traded]
  constructor
  · intro id absent
    rw [find] at absent
    split at absent
    next => cases absent
    next => exact bounded.untouched id absent
  · intro id other found
    rw [find] at found
    split at found
    next own =>
      cases found
      rw [own, bounded.untouched _ created.fresh, created.quantity]
      exact quantity.le
    next => exact bounded.remaining id other found

theorem Bounded.created (bounded : Bounded limit session) (positive : 0 < limit)
    (created : Created session.manager request order next.manager)
    (limits : next.manager.riskManager.limits = session.manager.riskManager.limits) (traded : next.traded = session.traded)
    (overlap : next.overlap = max session.overlap (session.unfilled request.side))
    (position : next.position = session.position) : Bounded limit next := by
  obtain ⟨untouched, remaining⟩ := bounded.created_records created traded
  obtain ⟨lower, upper⟩ := abs_le.mp (bounded.within positive created.passes)
  have unfilled := unfilled_created created traded (bounded.untouched _ created.fresh)
  have grows := le_max_left session.overlap (session.unfilled request.side)
  have covers := le_max_right session.overlap (session.unfilled request.side)
  have long := bounded.long
  have short := bounded.short
  unfold positionDelta at lower upper
  refine ⟨limits ▸ bounded.limits, untouched, remaining, overlap ▸ bounded.overlap.trans grows, ?_, ?_⟩
  · rw [overlap, position, unfilled]
    intro room
    cases side : request.side with
    | buy =>
      simp only [side, if_true] at upper covers ⊢
      omega
    | sell =>
      have still := long (by omega)
      simp only [side, reduceCtorEq, if_false] at grows ⊢
      omega
  · rw [overlap, position, unfilled]
    intro room
    cases side : request.side with
    | sell =>
      simp only [side, reduceCtorEq, if_true, if_false] at lower covers ⊢
      omega
    | buy =>
      have still := short (by omega)
      simp only [side, reduceCtorEq, if_false] at grows ⊢
      omega

end Created

private theorem create_bounded (positive : 0 < limit) (bounded : Bounded limit session) (request : OrderRequest) :
    Bounded limit (session.step (.create request)) := by
  obtain ⟨position, limits, outcome⟩ := createOrder_cases session.manager request
  have same : (session.step (.create request)).position = session.position :=
    congrArg (fun held : Position => held.currentQuantity.toInt) position
  rcases outcome with ⟨error, result, orders, -⟩ | ⟨order, result, created⟩
  · have overlap : (session.step (.create request)).overlap = session.overlap := by simp only [Session.step, result]
    exact bounded.same limits orders rfl overlap same
  · have overlap : (session.step (.create request)).overlap = max session.overlap (session.unfilled request.side) := by
      simp only [Session.step, result]
    exact bounded.created positive created limits rfl overlap same

section Reported

variable {report : ExecutionReport} {order reported : Order} {next : Session}

private theorem Bounded.reported_records (bounded : Bounded limit session)
    (orders : next.manager.orders = session.manager.orders.insertOrAssign report.clientOrderId reported)
    (traded : next.traded = Function.update session.traded report.clientOrderId
      (session.traded report.clientOrderId + report.quantity.raw.toInt))
    (room : session.traded report.clientOrderId + report.quantity.raw.toInt ≤ reported.quantity.raw.toInt) :
    (∀ id, next.manager.orders.find? id = none → next.traded id = 0) ∧
      ∀ id other, next.manager.orders.find? id = some other → next.traded id ≤ other.quantity.raw.toInt := by
  have find : ∀ id, next.manager.orders.find? id =
      if id = report.clientOrderId then some reported else session.manager.orders.find? id := by
    intro id
    rw [orders, SortedMap.Map.find?_insertOrAssign]
  have moved : ∀ id, id ≠ report.clientOrderId → next.traded id = session.traded id := by
    intro id other
    rw [traded]
    exact Function.update_of_ne other _ _
  constructor
  · intro id absent
    rw [find] at absent
    split at absent
    next => cases absent
    next foreign => exact (moved id foreign).trans (bounded.untouched id absent)
  · intro id other found
    rw [find] at found
    split at found
    next own =>
      cases found
      rw [own, traded, Function.update_self]
      exact room
    next foreign => exact (moved id foreign).trans_le (bounded.remaining id other found)

private theorem Bounded.reported_position (bounded : Bounded limit session)
    (position : next.manager.position = session.manager.position.applyTrade report.side report.price report.quantity)
    (positive : 0 < report.quantity.raw.toInt)
    (still : report.quantity.raw.toInt ≤ session.unfilled report.side) (small : limit + session.overlap < 2 ^ 63) :
    next.position = session.position + if report.side = .buy then report.quantity.raw.toInt else -report.quantity.raw.toInt := by
  have after : next.position = (session.manager.position.currentQuantity +
      if report.side = .buy then report.quantity.raw else -report.quantity.raw).toInt := by
    rw [← applyTrade_quantity _ _ report.price, ← position]
    rfl
  have bounds := fits_toInt session.manager.position.currentQuantity
  have size := fits_toInt report.quantity.raw
  have upper := bounded.long small
  have lower := bounded.short small
  rw [after]
  unfold Session.position at upper lower ⊢
  unfold Fits at bounds size
  cases side : report.side with
  | buy =>
    rw [side] at still
    apply toInt_add_of_fits
    simp only [if_true]
    unfold Fits
    omega
  | sell =>
    rw [side] at still
    have negated : (-report.quantity.raw).toInt = -report.quantity.raw.toInt := by
      apply toInt_neg_of_fits
      unfold Fits
      omega
    simp only [reduceCtorEq, if_false]
    rw [← negated]
    apply toInt_add_of_fits
    rw [negated]
    unfold Fits
    omega

end Reported

private theorem trade_bounded (bounded : Bounded limit session) {report : ExecutionReport} (honest : session.Honest report) :
    Bounded limit (session.step (.trade report)) := by
  obtain ⟨order, found, side, room⟩ := honest.accepted
  have positive := honest.positive
  rcases applyExecution_cases session.manager report with ⟨absent, -⟩ | ⟨known, reported, present, kept, same, -, orders, position, risk, -⟩
  · rw [found] at absent
    cases absent
  · cases found.symm.trans present
    rw [if_pos honest.execType] at position
    obtain ⟨untouched, remaining⟩ := @Bounded.reported_records limit session report reported (session.step (.trade report))
      bounded orders rfl (same ▸ room)
    have unfilled := @unfilled_reported session report order reported (session.step (.trade report)) found orders kept same rfl
    have nonneg := @unfilled_nonneg (session.step (.trade report)) remaining
    have still : report.quantity.raw.toInt ≤ session.unfilled report.side := by
      have left := nonneg report.side
      rw [unfilled, side, if_pos rfl] at left
      rw [side]
      omega
    have moved := @Bounded.reported_position limit session report (session.step (.trade report)) bounded position positive still
    refine ⟨risk ▸ bounded.limits, untouched, remaining, bounded.overlap, ?_, ?_⟩
    · intro small
      have upper := bounded.long small
      rw [unfilled, moved small, side]
      change _ ≤ limit + session.overlap
      cases which : order.side <;> simp only [if_true, reduceCtorEq, if_false] <;> omega
    · intro small
      have lower := bounded.short small
      rw [unfilled, moved small, side]
      change -(limit + session.overlap) ≤ _
      cases which : order.side <;> simp only [if_true, reduceCtorEq, if_false] <;> omega

private theorem run_bounded (positive : 0 < limit) {events : List Event} (honest : session.HonestRun events)
    (bounded : Bounded limit session) : Bounded limit (session.run events) := by
  induction events generalizing session with
  | nil => exact bounded
  | cons event rest ih =>
    cases event with
    | create request => exact ih honest (create_bounded positive bounded request)
    | trade report => exact ih honest.2 (trade_bounded bounded honest.1)

theorem Bounded.position (bounded : Bounded limit session) : |session.position| ≤ limit + session.overlap := by
  have buys := unfilled_nonneg bounded.remaining .buy
  have sells := unfilled_nonneg bounded.remaining .sell
  obtain ⟨lower, upper⟩ := fits_toInt session.manager.position.currentQuantity
  have long := bounded.long
  have short := bounded.short
  unfold Session.position at long short ⊢
  rw [abs_le]
  by_cases small : limit + session.overlap < 2 ^ 63
  · have above := long small
    have below := short small
    constructor <;> omega
  · constructor <;> omega

/-- A manager before its first order, with a flat position. -/
structure Started (manager : OrderManager) : Prop where
  flat : manager.position.currentQuantity = 0
  orders : manager.orders = .empty

/-- The position never leaves the limit by more than the overlap of the orders
accepted so far. -/
theorem position_within_limit {manager : OrderManager} (started : Started manager)
    (limited : 0 < manager.riskManager.limits.maxPositionQuantity.raw.toInt) {events : List Event}
    (honest : Session.HonestRun { manager } events) :
    |(Session.run { manager } events).position| ≤
      manager.riskManager.limits.maxPositionQuantity.raw.toInt + (Session.run { manager } events).overlap := by
  apply Bounded.position
  refine run_bounded limited honest ⟨rfl, fun _ _ => rfl, ?_, le_refl _, ?_, ?_⟩
  · intro id order found
    rw [started.orders] at found
    cases found
  · intro _
    simp [Session.position, Session.unfilled, started.flat, started.orders, SortedMap.Map.empty, limited.le]
  · intro _
    simp [Session.position, Session.unfilled, started.flat, started.orders, SortedMap.Map.empty, limited.le]

theorem position_within_limit_overlap :
    let manager : OrderManager := { riskManager := { limits := { maxPositionQuantity := ⟨5⟩ } } }
    let events : List Event := [.create ⟨1, .buy, .limit, ⟨100⟩, ⟨3⟩⟩,
      .trade { clientOrderId := 1, execType := .trade, price := ⟨100⟩, quantity := ⟨2⟩ }, .create ⟨1, .buy, .limit, ⟨100⟩, ⟨3⟩⟩]
    |(Session.run { manager } events).position| ≤ 5 + (Session.run { manager } events).overlap :=
  position_within_limit ⟨rfl, rfl⟩ (by decide) ⟨⟨rfl, by decide, _, rfl, rfl, by decide⟩, trivial⟩

/-- Two orders are accepted while the position is flat and both are filled. -/
theorem position_beyond_limit : ∃ manager events, Started manager ∧
    0 < manager.riskManager.limits.maxPositionQuantity.raw.toInt ∧ Session.HonestRun { manager } events ∧
    manager.riskManager.limits.maxPositionQuantity.raw.toInt < |(Session.run { manager } events).position| := by
  let bought (id : OrderId) : ExecutionReport := { clientOrderId := id, execType := .trade, price := ⟨100⟩, quantity := ⟨5⟩ }
  refine ⟨{ riskManager := { limits := { maxPositionQuantity := ⟨5⟩ } } }, [.create ⟨1, .buy, .limit, ⟨100⟩, ⟨5⟩⟩,
    .create ⟨1, .buy, .limit, ⟨100⟩, ⟨5⟩⟩, .trade (bought 1), .trade (bought 2)], ⟨rfl, rfl⟩, by decide, ?_, by decide⟩
  exact ⟨⟨rfl, by decide, _, rfl, rfl, by decide⟩, ⟨rfl, by decide, _, rfl, rfl, by decide⟩, trivial⟩

end FinanceTech.Proofs.PositionLimit
