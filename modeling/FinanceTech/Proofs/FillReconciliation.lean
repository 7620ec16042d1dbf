import FinanceTech.Proofs.OrderRuns
import Mathlib.Algebra.BigOperators.Group.List.Basic

/-! The position and the orders are two accounts of the same fills: the position
adds up the trades of all reports, and each order remembers the cumulative
quantity of its last one. They agree however the reports of different orders
are interleaved. -/

namespace FinanceTech.Proofs.FillReconciliation
open Library Trading OrderCreation OrderRuns

def signed (side : Side) (quantity : Int) : Int := if side = .buy then quantity else -quantity

/-- What the orders say the position is. -/
def signedFilled (manager : OrderManager) : Int :=
  (manager.orders.entries.map fun entry => signed entry.2.side entry.2.filledQuantity.raw.toInt).sum

def tradeOf (report : ExecutionReport) : Int := if report.execType = .trade then report.quantity.raw.toInt else 0

def traded (reports : List ExecutionReport) : Int := (reports.map tradeOf).sum

/-- What an honest venue reports of one order, in the order it is issued: each
report has the id and the side of the order, and as its filled quantity the sum
of the trades so far. -/
def HonestStream (id : OrderId) (side : Side) (stream : List ExecutionReport) : Prop :=
  Runs.AtEveryStep (fun total report => total + tradeOf report)
    (fun total report => report.clientOrderId = id ∧ report.side = side ∧
      report.filledQuantity.raw.toInt = total + tradeOf report) 0 stream

instance (id : OrderId) (side : Side) (stream : List ExecutionReport) : Decidable (HonestStream id side stream) :=
  inferInstanceAs (Decidable (Runs.AtEveryStep _ _ _ _))

def reportsFor (events : List Event) (id : OrderId) : List ExecutionReport :=
  events.filterMap fun
    | .create _ => none
    | .report report => if report.clientOrderId = id then some report else none

def Known (manager : OrderManager) : Event → Prop
  | .create _ => True
  | .report report => manager.orders.find? report.clientOrderId ≠ none

instance (manager : OrderManager) : (event : Event) → Decidable (Known manager event)
  | .create _ => .isTrue trivial
  | .report _ => inferInstanceAs (Decidable (¬ _ = none))

/-- A run that takes the reports of each accepted order from its stream, one
after the other, and those of different orders in any order. -/
structure Delivered (streams : OrderId → List ExecutionReport) (manager : OrderManager) (events : List Event) : Prop where
  known : Runs.AtEveryStep step Known manager events
  inOrder : ∀ id, reportsFor events id <+: streams id
  honest : ∀ id order, (run manager events).orders.find? id = some order → HonestStream id order.side (streams id)

/-- A flat position and orders that have no fills yet. -/
structure Unfilled (manager : OrderManager) : Prop where
  flat : manager.position.currentQuantity = 0
  orders : ∀ id order, manager.orders.find? id = some order → order.filledQuantity = 0

private theorem honest_next {id : OrderId} {side : Side} {before after : List ExecutionReport} {report : ExecutionReport}
    (honest : HonestStream id side (before ++ report :: after)) :
    report.side = side ∧ report.filledQuantity.raw.toInt = traded before + tradeOf report := by
  obtain ⟨-, same, cumulative⟩ := (Runs.atEveryStep_iff _).mp honest before report after rfl
  rw [← List.foldl_map, ← List.sum_eq_foldl] at cumulative
  exact ⟨same, cumulative⟩

theorem reportsFor_create (events : List Event) (request : OrderRequest) (id : OrderId) :
    reportsFor (events ++ [.create request]) id = reportsFor events id := by
  rw [reportsFor, List.filterMap_append]
  exact List.append_nil _

theorem reportsFor_report (events : List Event) (report : ExecutionReport) (id : OrderId) :
    reportsFor (events ++ [.report report]) id =
      if id = report.clientOrderId then reportsFor events id ++ [report] else reportsFor events id := by
  rw [reportsFor, List.filterMap_append]
  split
  next own =>
    rw [own]
    simp only [List.filterMap_cons, if_true, List.filterMap_nil]
    rfl
  next other =>
    simp only [List.filterMap_cons, if_neg fun own => other (Eq.symm own), List.filterMap_nil, List.append_nil]
    rfl

private theorem side_kept {manager : OrderManager} {id : OrderId} {order : Order} (tracked : manager.orders.find? id = some order)
    (events : List Event) : ∃ kept, (run manager events).orders.find? id = some kept ∧ kept.side = order.side := by
  refine @Runs.foldl_preserves _ _ step (fun state => ∃ kept, state.orders.find? id = some kept ∧ kept.side = order.side)
    (fun state event holding => ?_) events manager ⟨order, tracked, rfl⟩
  obtain ⟨kept, present, same⟩ := holding
  rcases tracked_step present event with still | ⟨report, -, -, changed⟩
  · exact ⟨kept, still, same⟩
  · exact ⟨reported kept report, changed, same⟩

section Sums

variable {manager : OrderManager} {report : ExecutionReport} {order : Order}

private theorem signedFilled_created {request : OrderRequest} {next : OrderManager} (created : Created manager request order next) :
    signedFilled next = signedFilled manager := by
  have perm := SortedMap.Map.insertOrAssign_fresh created.fresh order
  rw [← created.orders] at perm
  have nothing : signed order.side (0 : Quantity).raw.toInt = 0 := by cases order.side <;> rfl
  rw [signedFilled, (perm.map _).sum_eq, List.map_cons, List.sum_cons, created.filled, nothing, zero_add, signedFilled]

private theorem signedFilled_reported (found : manager.orders.find? report.clientOrderId = some order) :
    signedFilled (step manager (.report report)) =
      signedFilled manager + signed order.side (report.filledQuantity.raw.toInt - order.filledQuantity.raw.toInt) := by
  obtain ⟨rest, before, after⟩ := SortedMap.Map.insertOrAssign_perm found (reported order report)
  have orders : (step manager (.report report)).orders =
      manager.orders.insertOrAssign report.clientOrderId (reported order report) := by
    simp only [step, applyExecution_known found]
  rw [← orders] at after
  rw [signedFilled, signedFilled, (after.map _).sum_eq, (before.map _).sum_eq, List.map_cons, List.map_cons, List.sum_cons,
    List.sum_cons]
  cases side : order.side with
  | buy =>
    simp only [reported, signed, side, if_true]
    omega
  | sell =>
    simp only [reported, signed, side, reduceCtorEq, if_false]
    omega

private theorem position_reported (found : manager.orders.find? report.clientOrderId = some order) :
    (step manager (.report report)).position.currentQuantity =
      manager.position.currentQuantity + Int64.ofInt (signed report.side (tradeOf report)) := by
  simp only [step, applyExecution_known found]
  unfold signed tradeOf
  split
  · rw [applyTrade_quantity]
    split
    · rw [Int64.ofInt_toInt]
    · rw [Int64.ofInt_neg, Int64.ofInt_toInt]
  · simp

end Sums

structure Reconciled (done : List Event) (manager : OrderManager) : Prop where
  filled : ∀ id order, manager.orders.find? id = some order → order.filledQuantity.raw.toInt = traded (reportsFor done id)
  silent : ∀ id, manager.orders.find? id = none → reportsFor done id = []
  position : manager.position.currentQuantity = Int64.ofInt (signedFilled manager)

section Step

variable {done : List Event} {manager : OrderManager}

private theorem create_reconciled (reconciled : Reconciled done manager) (request : OrderRequest) :
    Reconciled (done ++ [.create request]) (step manager (.create request)) := by
  have position := created_position manager request
  rcases find?_created manager request with same | ⟨order, created⟩
  · have total : signedFilled (step manager (.create request)) = signedFilled manager := by rw [signedFilled, same, signedFilled]
    refine ⟨?_, ?_, ?_⟩
    · rw [same]
      intro id order tracked
      rw [reportsFor_create]
      exact reconciled.filled id order tracked
    · rw [same]
      intro id absent
      rw [reportsFor_create]
      exact reconciled.silent id absent
    · rw [position, total]
      exact reconciled.position
  · have find : ∀ id, (step manager (.create request)).orders.find? id =
        if id = order.clientOrderId then some order else manager.orders.find? id := by
      intro id
      rw [created.orders, SortedMap.Map.find?_insertOrAssign]
    refine ⟨?_, ?_, ?_⟩
    · intro id other tracked
      rw [find] at tracked
      rw [reportsFor_create]
      split at tracked
      next own =>
        cases tracked
        rw [own, reconciled.silent _ created.fresh, created.filled]
        rfl
      next => exact reconciled.filled id other tracked
    · intro id absent
      rw [find] at absent
      rw [reportsFor_create]
      split at absent
      next => cases absent
      next => exact reconciled.silent id absent
    · rw [position, signedFilled_created created]
      exact reconciled.position

/-- The next report of an order raises its filled quantity and moves the
position by the same quantity. -/
theorem report_reconciled (reconciled : Reconciled done manager) {report : ExecutionReport} {order : Order}
    (found : manager.orders.find? report.clientOrderId = some order) (side : report.side = order.side)
    (cumulative : report.filledQuantity.raw.toInt = traded (reportsFor done report.clientOrderId) + tradeOf report) :
    Reconciled (done ++ [.report report]) (step manager (.report report)) := by
  have raised : report.filledQuantity.raw.toInt - order.filledQuantity.raw.toInt = tradeOf report := by
    rw [cumulative, reconciled.filled _ order found]
    omega
  refine ⟨?_, ?_, ?_⟩
  · intro id other tracked
    rw [find?_reported found] at tracked
    rw [reportsFor_report]
    split at tracked
    next own =>
      cases tracked
      rw [if_pos own, own, traded, List.map_append, List.sum_append, List.map_singleton, List.sum_singleton]
      exact cumulative
    next foreign =>
      rw [if_neg foreign]
      exact reconciled.filled id other tracked
  · intro id absent
    rw [find?_reported found] at absent
    rw [reportsFor_report]
    split at absent
    next => cases absent
    next foreign =>
      rw [if_neg foreign]
      exact reconciled.silent id absent
  · rw [position_reported found, signedFilled_reported found, raised, side, Int64.ofInt_add, reconciled.position]

end Step

private theorem unfilled_reconciled {manager : OrderManager} (unfilled : Unfilled manager) : Reconciled [] manager := by
  have total : signedFilled manager = 0 := by
    apply List.sum_eq_zero
    intro share member
    obtain ⟨entry, present, rfl⟩ := List.mem_map.mp member
    rw [unfilled.orders entry.1 entry.2 (SortedMap.Map.find?_eq_some.mpr present)]
    cases entry.2.side <;> rfl
  refine ⟨?_, fun _ _ => rfl, ?_⟩
  · intro id order tracked
    rw [unfilled.orders id order tracked]
    rfl
  · rw [unfilled.flat, total]
    rfl

private theorem delivered_reconciled {streams : OrderId → List ExecutionReport} {manager : OrderManager} {events : List Event}
    (delivered : Delivered streams manager events) (unfilled : Unfilled manager) {done : List Event} (inside : done <+: events) :
    Reconciled done (run manager done) := by
  induction done using List.reverseRecOn with
  | nil => exact unfilled_reconciled unfilled
  | append_singleton earlier event ih =>
    have reconciled := ih ((List.prefix_append _ _).trans inside)
    rw [run_append]
    cases event with
    | create request => exact create_reconciled reconciled request
    | report report =>
      obtain ⟨rest, split⟩ := inside
      rw [List.append_assoc, List.singleton_append] at split
      have known : Known (run manager earlier) (.report report) := (Runs.atEveryStep_iff events).mp delivered.known
        earlier (.report report) rest split.symm
      obtain ⟨order, found⟩ := Option.ne_none_iff_exists'.mp known
      obtain ⟨final, present, same⟩ := side_kept found (.report report :: rest)
      rw [← run_append, split] at present
      -- the stream of the order goes on with this report
      have next : reportsFor earlier report.clientOrderId ++ [report] <+: streams report.clientOrderId := by
        have taken := delivered.inOrder report.clientOrderId
        rw [← split, List.append_cons, reportsFor, List.filterMap_append, ← reportsFor, reportsFor_report, if_pos rfl] at taken
        exact (List.prefix_append _ _).trans taken
      obtain ⟨others, stream⟩ := next
      rw [List.append_assoc, List.singleton_append] at stream
      obtain ⟨side, cumulative⟩ := honest_next (stream ▸ delivered.honest _ final present)
      exact report_reconciled reconciled found (side.trans same) cumulative

/-- After every report the position is what the orders say it is. -/
theorem position_reconciles {streams : OrderId → List ExecutionReport} {manager : OrderManager} {events : List Event}
    (delivered : Delivered streams manager events) (unfilled : Unfilled manager) {done : List Event} (inside : done <+: events)
    (fits : Fits (signedFilled (run manager done))) :
    (run manager done).position.currentQuantity.toInt = signedFilled (run manager done) := by
  rw [(delivered_reconciled delivered unfilled inside).position]
  exact toInt_ofInt_of_fits fits

/-- A buy and a sell whose reports alternate: the sell turns the position short
and the buy is cancelled after its second fill. -/
theorem position_reconciles_alternating :
    let bought : ExecutionReport := { clientOrderId := 1, execType := .trade, price := ⟨100⟩, quantity := ⟨2⟩, filledQuantity := ⟨2⟩ }
    let sold : ExecutionReport := { clientOrderId := 2, side := .sell, execType := .trade, price := ⟨99⟩, quantity := ⟨5⟩, filledQuantity := ⟨5⟩ }
    let last : ExecutionReport := { bought with quantity := ⟨1⟩, filledQuantity := ⟨3⟩ }
    let cancelled : ExecutionReport := { last with execType := .cancel, status := .cancelled }
    let events : List Event := [.create ⟨1, .buy, .limit, ⟨100⟩, ⟨4⟩⟩, .report bought, .create ⟨1, .sell, .limit, ⟨99⟩, ⟨5⟩⟩,
      .report sold, .report last, .report cancelled]
    (run {} events).position.currentQuantity.toInt = signedFilled (run {} events) := by
  intro bought sold last cancelled events
  have delivered : Delivered (reportsFor events) {} events := by
    refine ⟨by decide, fun _ => List.prefix_rfl, fun id order tracked => ?_⟩
    have honest : ∀ entry ∈ (run {} events).orders.entries, HonestStream entry.1 entry.2.side (reportsFor events entry.1) := by
      decide
    exact honest ⟨id, order⟩ (SortedMap.Map.find?_eq_some.mp tracked)
  exact position_reconciles delivered ⟨rfl, fun id order tracked => by cases tracked⟩ List.prefix_rfl (by decide)

end FinanceTech.Proofs.FillReconciliation
