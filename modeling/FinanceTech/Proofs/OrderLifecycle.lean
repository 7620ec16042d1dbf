import FinanceTech.Proofs.OrderRuns

/-! The life of one order over a run of the order manager. Applying a report
overwrites the status and the filled quantity with what the report says, so the
end of an order is final, and its fills add up, exactly as far as the reports
keep to it. -/

namespace FinanceTech.Proofs.OrderLifecycle
open Library Trading OrderCreation OrderRuns

def Terminal (order : Order) : Prop := order.status = .filled ∨ order.status = .cancelled ∨ order.status = .rejected

instance (order : Order) : Decidable (Terminal order) := inferInstanceAs (Decidable (_ ∨ _))

structure Settled (order kept : Order) : Prop where
  status : kept.status = order.status
  filled : kept.filledQuantity = order.filledQuantity

private theorem Settled.terminal {order kept : Order} (settled : Settled order kept) (terminal : Terminal order) : Terminal kept := by
  unfold Terminal
  rw [settled.status]
  exact terminal

/-- Neither the order nor the position has changed. -/
structure Untouched (before after : OrderManager) (id : OrderId) : Prop where
  order : ∀ order, before.orders.find? id = some order → ∃ kept, after.orders.find? id = some kept ∧ Settled order kept
  position : after.position = before.position

/-- After an order has ended, no report that names it changes anything. -/
def TerminalFinal (manager : OrderManager) (events : List Event) : Prop :=
  ∀ earlier later report rest, events = earlier ++ later ++ .report report :: rest →
    ∀ order, (run manager earlier).orders.find? report.clientOrderId = some order → Terminal order →
      Untouched (run manager (earlier ++ later)) (run manager (earlier ++ later ++ [.report report])) report.clientOrderId

structure Repeats (order : Order) (report : ExecutionReport) : Prop where
  status : report.status = order.status
  filled : report.filledQuantity = order.filledQuantity
  quantity : report.execType = .trade → report.quantity = 0

def RepeatsAfterEnd (manager : OrderManager) : Event → Prop
  | .create _ => True
  | .report report => ∀ order, manager.orders.find? report.clientOrderId = some order → Terminal order → Repeats order report

section Step

variable {manager : OrderManager} {report : ExecutionReport} {order : Order}

private theorem untouched_iff (found : manager.orders.find? report.clientOrderId = some order) :
    Untouched manager (step manager (.report report)) report.clientOrderId ↔ Repeats order report := by
  have after : (step manager (.report report)).orders.find? report.clientOrderId = some (reported order report) := by
    rw [find?_reported found, if_pos rfl]
  have position : (step manager (.report report)).position =
      if report.execType = .trade then manager.position.applyTrade report.side report.price report.quantity
      else manager.position := by simp only [step, applyExecution_known found]
  constructor
  · intro untouched
    obtain ⟨kept, present, settled⟩ := untouched.order order found
    cases after.symm.trans present
    refine ⟨settled.status, settled.filled, fun execType => ?_⟩
    by_contra moves
    have still := untouched.position
    rw [position, if_pos execType] at still
    exact applyTrade_moves moves (congrArg Position.currentQuantity still)
  · intro repeats
    constructor
    · intro known present
      cases found.symm.trans present
      exact ⟨reported order report, after, repeats.status, repeats.filled⟩
    · rw [position]
      split
      next execType => rw [repeats.quantity execType, applyTrade_zero]
      next => rfl

private theorem terminal_step {id : OrderId} (tracked : manager.orders.find? id = some order) (terminal : Terminal order)
    {event : Event} (repeats : RepeatsAfterEnd manager event) :
    ∃ kept, (step manager event).orders.find? id = some kept ∧ Settled order kept := by
  rcases tracked_step tracked event with same | ⟨report, rfl, rfl, changed⟩
  · exact ⟨order, same, rfl, rfl⟩
  · have again := repeats order tracked terminal
    exact ⟨reported order report, changed, again.status, again.filled⟩

end Step

private theorem terminal_stays {manager : OrderManager} {events : List Event}
    (repeats : Runs.AtEveryStep step RepeatsAfterEnd manager events) {id : OrderId} {order : Order}
    (tracked : manager.orders.find? id = some order) (terminal : Terminal order) :
    ∃ kept, (run manager events).orders.find? id = some kept ∧ Settled order kept := by
  refine Runs.guarded_preserves (fun state => ∃ kept, state.orders.find? id = some kept ∧ Settled order kept)
    (fun state event holding guard => ?_) repeats ⟨order, tracked, rfl, rfl⟩
  obtain ⟨kept, present, settled⟩ := holding
  obtain ⟨next, after, same⟩ := terminal_step present (settled.terminal terminal) guard
  exact ⟨next, after, same.status.trans settled.status, same.filled.trans settled.filled⟩

/-- The end of every order is final in a run exactly when each report for an
order that has ended repeats its status and filled quantity and trades nothing. -/
theorem terminal_final_iff (manager : OrderManager) (events : List Event) :
    TerminalFinal manager events ↔ Runs.AtEveryStep step RepeatsAfterEnd manager events := by
  constructor
  · intro final
    apply (Runs.atEveryStep_iff events).mpr
    rintro before (request | report) after split
    · trivial
    · intro order found terminal
      have untouched := final before [] report after (by rw [List.append_nil]; exact split) order found terminal
      rw [List.append_nil, run_append] at untouched
      exact (untouched_iff found).mp untouched
  · rintro repeats earlier later report rest rfl order found terminal
    obtain ⟨first, now, -⟩ := (Runs.atEveryStep_append _ _).mp repeats
    obtain ⟨-, between⟩ := (Runs.atEveryStep_append _ _).mp first
    obtain ⟨kept, present, settled⟩ := terminal_stays between found terminal
    rw [← run, ← run_append] at present
    rw [run_append _ _ [_]]
    exact (untouched_iff present).mpr (now kept present (settled.terminal terminal))

/-- A cancelled order is filled by a report that comes late. -/
theorem cancelled_order_fills : ∃ manager events, ¬ TerminalFinal manager events := by
  let cancelled : ExecutionReport := { clientOrderId := 1, instrument := 1, execType := .cancel, status := .cancelled }
  let late : ExecutionReport := { cancelled with
    execType := .trade, status := .filled, price := ⟨100⟩, quantity := ⟨5⟩, filledQuantity := ⟨5⟩ }
  refine ⟨{}, [.create ⟨1, .buy, .limit, ⟨100⟩, ⟨5⟩⟩, .report cancelled, .report late], fun final => ?_⟩
  have untouched := final [.create _, .report cancelled] [] late [] rfl _ rfl (.inr (.inl rfl))
  exact absurd (congrArg Position.currentQuantity untouched.position) (by decide)

/-- The filled quantity lies within the quantity of the order. -/
structure Within (order : Order) : Prop where
  lower : 0 ≤ order.filledQuantity.raw
  upper : order.filledQuantity.raw ≤ order.quantity.raw

def AllWithin (manager : OrderManager) : Prop := ∀ id order, manager.orders.find? id = some order → Within order

/-- Every order is within its quantity in every state of a run, and no order
has less filled in a later state than in an earlier one. -/
structure Accounted (manager : OrderManager) (events : List Event) : Prop where
  within : ∀ before, before <+: events → AllWithin (run manager before)
  grows : ∀ earlier later, earlier ++ later <+: events → ∀ id order, (run manager earlier).orders.find? id = some order →
    ∃ grown, (run manager (earlier ++ later)).orders.find? id = some grown ∧
      order.filledQuantity.raw ≤ grown.filledQuantity.raw

/-- The filled quantity of a report lies between that of its order and the
quantity of the order. -/
def Fills (manager : OrderManager) : Event → Prop
  | .create _ => True
  | .report report => ∀ order, manager.orders.find? report.clientOrderId = some order →
    order.filledQuantity.raw ≤ report.filledQuantity.raw ∧ report.filledQuantity.raw ≤ order.quantity.raw

private theorem within_step {manager : OrderManager} (within : AllWithin manager) {event : Event} (fills : Fills manager event) :
    AllWithin (step manager event) := by
  cases event with
  | create request =>
    rcases find?_created manager request with same | ⟨created, fresh⟩
    · rw [AllWithin, same]
      exact within
    · intro id order tracked
      rw [fresh.orders, SortedMap.Map.find?_insertOrAssign] at tracked
      split at tracked
      next =>
        cases tracked
        have positive := fresh.wellFormed.quantity
        refine ⟨?_, ?_⟩
        · rw [fresh.filled]
          exact Int64.le_refl 0
        · rw [fresh.filled, fresh.quantity, Int64.le_iff_toInt_le]
          exact positive.le
      next => exact within id order tracked
  | report report =>
    cases found : manager.orders.find? report.clientOrderId with
    | none =>
      simp only [step, applyExecution_unknown found]
      exact within
    | some known =>
      obtain ⟨more, room⟩ := fills known found
      intro id order tracked
      rw [find?_reported found] at tracked
      split at tracked
      next =>
        cases tracked
        exact ⟨Int64.le_trans (within _ _ found).lower more, room⟩
      next => exact within id order tracked

private theorem filled_grows {manager : OrderManager} {events : List Event} (fills : Runs.AtEveryStep step Fills manager events)
    {id : OrderId} {order : Order} (tracked : manager.orders.find? id = some order) :
    ∃ grown, (run manager events).orders.find? id = some grown ∧ order.filledQuantity.raw ≤ grown.filledQuantity.raw := by
  have start : ∃ grown, manager.orders.find? id = some grown ∧ order.filledQuantity.raw ≤ grown.filledQuantity.raw :=
    ⟨order, tracked, Int64.le_refl order.filledQuantity.raw⟩
  refine Runs.guarded_preserves (fun state => ∃ grown, state.orders.find? id = some grown ∧
    order.filledQuantity.raw ≤ grown.filledQuantity.raw) (fun state event holding guard => ?_) fills start
  obtain ⟨grown, present, more⟩ := holding
  rcases tracked_step present event with same | ⟨report, rfl, rfl, changed⟩
  · exact ⟨grown, same, more⟩
  · exact ⟨reported grown report, changed, Int64.le_trans more (guard grown present).1⟩

/-- The fills of a run add up exactly when every report for a known order says
at least what is filled already and at most what was ordered. -/
theorem fills_accounted_iff {manager : OrderManager} (within : AllWithin manager) (events : List Event) :
    Accounted manager events ↔ Runs.AtEveryStep step Fills manager events := by
  constructor
  · intro accounted
    apply (Runs.atEveryStep_iff events).mpr
    rintro before (request | report) after rfl
    · trivial
    · intro order found
      have inside : before ++ [.report report] <+: before ++ .report report :: after :=
        ⟨after, by rw [List.append_assoc, List.singleton_append]⟩
      obtain ⟨grown, present, more⟩ := accounted.grows before [.report report] inside _ order found
      have bound := accounted.within _ inside _ grown present
      rw [run_append] at present
      cases ((find?_reported found _).trans (if_pos rfl)).symm.trans present
      exact ⟨more, bound.upper⟩
  · intro fills
    constructor
    · intro before inside
      exact Runs.guarded_preserves AllWithin (fun _ _ holding guard => within_step holding guard) (fills.of_prefix inside) within
    · intro earlier later inside id order tracked
      obtain ⟨-, between⟩ := (Runs.atEveryStep_append _ _).mp (fills.of_prefix inside)
      rw [run_append]
      exact filled_grows between tracked

/-- A partial fill that is reported twice, and the rest of the order. -/
theorem fills_accounted_iff_duplicate :
    let part : ExecutionReport := { clientOrderId := 1, execType := .trade, quantity := ⟨2⟩, filledQuantity := ⟨2⟩ }
    Accounted {} [.create ⟨1, .buy, .limit, ⟨100⟩, ⟨5⟩⟩, .report part, .report part,
      .report { part with quantity := ⟨3⟩, filledQuantity := ⟨5⟩ }] := by
  refine (fills_accounted_iff ?_ _).mpr ⟨trivial, ?_, ?_, ?_, trivial⟩
  · intro id order tracked
    cases tracked
  all_goals
    intro order found
    cases found
    decide

/-- Two partial fills are reported in the wrong order, and the second takes
back what the first has filled. -/
theorem late_report_takes_back : ∃ manager events, AllWithin manager ∧ ¬ Accounted manager events := by
  let part : ExecutionReport := { clientOrderId := 1, execType := .trade, quantity := ⟨2⟩, filledQuantity := ⟨2⟩ }
  let rest : ExecutionReport := { part with filledQuantity := ⟨4⟩ }
  refine ⟨{}, [.create ⟨1, .buy, .limit, ⟨100⟩, ⟨5⟩⟩, .report rest, .report part], ?_, fun accounted => ?_⟩
  · intro id order tracked
    cases tracked
  · obtain ⟨grown, present, more⟩ := accounted.grows [.create _, .report rest] [.report part] List.prefix_rfl 1 _ rfl
    cases present
    exact absurd more (by decide)

end FinanceTech.Proofs.OrderLifecycle
