import FinanceTech.ExecutionReportHandler
import FinanceTech.Proofs.OrderRuns

/-! One report moves two positions: the one the risk checks use, which takes the
trades of every known order, and the one the position manager keeps for the
instrument of the report. They stay equal as long as the reports that move
anything are about the instrument of the first, and no longer. A report that is
refused moves neither. -/

namespace FinanceTech.Proofs.LedgerAgreement
open Library Trading OrderCreation OrderRuns

def handle (handler : ExecutionReportHandler) : Event → ExecutionReportHandler
  | .create request => { handler with orderManager := (handler.orderManager.createOrder request).2 }
  | .report report => (handler.onExecutionReport report).2

/-- The position of an instrument, which is flat when there is none. -/
def held (manager : PositionManager) (instrument : InstrumentId) : Position := (manager.find instrument).getD { instrument }

structure Same (first second : Position) : Prop where
  quantity : first.currentQuantity = second.currentQuantity
  average : first.averageEntryPrice = second.averageEntryPrice

def Agree (handler : ExecutionReportHandler) : Prop :=
  Same handler.orderManager.position (held handler.positionManager handler.orderManager.position.instrument)

structure Moves (manager : OrderManager) (report : ExecutionReport) : Prop where
  known : manager.orders.find? report.clientOrderId ≠ none
  execType : report.execType = .trade
  quantity : report.quantity ≠ 0

def Routed (handler : ExecutionReportHandler) : Event → Prop
  | .create _ => True
  | .report report => Moves handler.orderManager report → report.instrument = handler.orderManager.position.instrument

instance (manager : OrderManager) (report : ExecutionReport) : Decidable (Moves manager report) :=
  decidable_of_iff (_ ∧ _ ∧ _) ⟨fun ⟨known, execType, quantity⟩ => ⟨known, execType, quantity⟩,
    fun moves => ⟨moves.known, moves.execType, moves.quantity⟩⟩

instance (handler : ExecutionReportHandler) : (event : Event) → Decidable (Routed handler event)
  | .create _ => .isTrue trivial
  | .report _ => inferInstanceAs (Decidable (_ → _))

private theorem applyTrade_instrument (position : Position) (side : Side) (price : Price) (quantity : Quantity) :
    (position.applyTrade side price quantity).instrument = position.instrument := by
  unfold Position.applyTrade
  dsimp only
  repeat' split
  all_goals rfl

theorem Same.trade {first second : Position} (same : Same first second) (side : Side) (price : Price) (quantity : Quantity) :
    Same (first.applyTrade side price quantity) (second.applyTrade side price quantity) := by
  obtain ⟨instrument, currentQuantity, averageEntryPrice⟩ := first
  obtain ⟨other, _, _⟩ := second
  obtain ⟨rfl, rfl⟩ := same
  unfold Position.applyTrade
  dsimp only
  repeat' split
  all_goals exact ⟨rfl, rfl⟩

section Report

variable {handler : ExecutionReportHandler} {report : ExecutionReport}

private theorem held_applied {manager : PositionManager} (execType : report.execType = .trade) (quantity : report.quantity ≠ 0)
    (instrument : InstrumentId) : held (manager.applyExecution report).2 instrument =
      if instrument = report.instrument then (held manager instrument).applyTrade report.side report.price report.quantity
      else held manager instrument := by
  have counts : ¬ (report.execType ≠ .trade ∨ report.quantity.isZero = true) := by
    rw [ScaledValue.isZero_iff]
    rintro (other | zero)
    · exact other execType
    · exact quantity zero
  unfold held PositionManager.find PositionManager.applyExecution
  rw [if_neg counts, SortedMap.Map.find?_insertOrAssign]
  split
  next own => rw [own, Option.getD_some]
  next => rfl

private theorem handle_moves (moves : Moves handler.orderManager report) :
    (handle handler (.report report)).orderManager.position =
        handler.orderManager.position.applyTrade report.side report.price report.quantity ∧
      (handle handler (.report report)).positionManager = (handler.positionManager.applyExecution report).2 := by
  obtain ⟨order, found⟩ := Option.ne_none_iff_exists'.mp moves.known
  simp only [handle, ExecutionReportHandler.onExecutionReport, applyExecution_known found, moves.execType, if_true,
    not_true_eq_false, if_false, and_self]

private theorem handle_stays (stays : ¬ Moves handler.orderManager report) :
    (handle handler (.report report)).orderManager.position = handler.orderManager.position ∧
      (handle handler (.report report)).positionManager = handler.positionManager := by
  cases found : handler.orderManager.orders.find? report.clientOrderId with
  | none =>
    simp only [handle, ExecutionReportHandler.onExecutionReport, applyExecution_unknown found, Bool.false_eq_true,
      not_false_eq_true, if_true, and_self]
  | some order =>
    simp only [handle, ExecutionReportHandler.onExecutionReport, applyExecution_known found, not_true_eq_false, if_false]
    by_cases execType : report.execType = .trade
    · have zero : report.quantity = 0 := by
        by_contra quantity
        exact stays ⟨by rw [found]; exact Option.some_ne_none order, execType, quantity⟩
      refine ⟨?_, ?_⟩
      · rw [if_pos execType, zero, applyTrade_zero]
      · rw [PositionManager.applyExecution, if_pos (.inr ((ScaledValue.isZero_iff _).mpr zero))]
    · refine ⟨if_neg execType, ?_⟩
      rw [PositionManager.applyExecution, if_pos (.inl execType)]

/-- One report keeps the positions equal exactly when it is routed to the
position it moves: otherwise one of them moves and the other does not. -/
private theorem report_agrees (agree : Agree handler) :
    Agree (handle handler (.report report)) ↔ Routed handler (.report report) := by
  unfold Agree at agree ⊢
  by_cases moves : Moves handler.orderManager report
  · obtain ⟨position, positionManager⟩ := handle_moves moves
    rw [position, positionManager, applyTrade_instrument, held_applied moves.execType moves.quantity]
    constructor
    · intro same _
      by_contra elsewhere
      rw [if_neg fun own => elsewhere own.symm] at same
      exact applyTrade_moves moves.quantity (same.quantity.trans agree.quantity.symm)
    · intro routed
      rw [if_pos (routed moves).symm]
      exact agree.trade _ _ _
  · obtain ⟨position, positionManager⟩ := handle_stays moves
    rw [position, positionManager]
    exact ⟨fun _ moved => absurd moved moves, fun _ => agree⟩

end Report

private theorem handle_agrees {handler : ExecutionReportHandler} (agree : Agree handler) (event : Event) :
    Agree (handle handler event) ↔ Routed handler event := by
  cases event with
  | create request =>
    refine ⟨fun _ => trivial, fun _ => ?_⟩
    have position : (handle handler (.create request)).orderManager.position = handler.orderManager.position :=
      created_position handler.orderManager request
    unfold Agree at agree ⊢
    rw [position]
    exact agree
  | report report => exact report_agrees agree

/-- The two positions are equal throughout a run exactly when every report that
moves the position of the order manager carries its instrument. -/
theorem ledgers_agree_iff {handler : ExecutionReportHandler} (agree : Agree handler) (events : List Event) :
    (∀ before, before <+: events → Agree (before.foldl handle handler)) ↔ Runs.AtEveryStep handle Routed handler events :=
  Runs.throughout_iff Agree (fun _ event agree => handle_agrees agree event) events agree

/-- Trades of one instrument, with a report of an unknown order and one that is
no trade between them. -/
theorem ledgers_agree_iff_one_instrument :
    let position : Position := { instrument := 1 }
    let bought : ExecutionReport := { clientOrderId := 1, instrument := 1, execType := .trade, price := ⟨100⟩, quantity := ⟨2⟩ }
    let events : List Event := [.create ⟨1, .buy, .limit, ⟨100⟩, ⟨5⟩⟩, .report bought,
      .report { bought with clientOrderId := 7, instrument := 2 }, .report { bought with execType := .cancel, instrument := 2 },
      .report { bought with price := ⟨103⟩ }]
    ∀ before, before <+: events → Agree (before.foldl handle { orderManager := { position } }) :=
  (ledgers_agree_iff ⟨rfl, rfl⟩ _).mpr (by decide)

/-- An order for another instrument is created and filled: its trade moves the
position of the first instrument, which the position manager does not hold. -/
theorem ledgers_part : ∃ handler events, Agree handler ∧ ¬ ∀ before, before <+: events → Agree (before.foldl handle handler) := by
  let bought : ExecutionReport := { clientOrderId := 1, instrument := 2, execType := .trade, price := ⟨100⟩, quantity := ⟨5⟩ }
  refine ⟨{ orderManager := { position := { instrument := 1 } } }, [.create ⟨2, .buy, .limit, ⟨100⟩, ⟨5⟩⟩, .report bought],
    ⟨rfl, rfl⟩, fun agree => ?_⟩
  have apart := (agree _ List.prefix_rfl).quantity
  exact absurd apart (by decide)

section Refused

variable {handler : ExecutionReportHandler} {report : ExecutionReport}

private theorem refused_iff : (handler.onExecutionReport report).1 = false ↔ ¬ Moves handler.orderManager report := by
  cases found : handler.orderManager.orders.find? report.clientOrderId with
  | none =>
    have unknown : ¬ Moves handler.orderManager report := fun moves => moves.known found
    simp only [ExecutionReportHandler.onExecutionReport, applyExecution_unknown found, Bool.false_eq_true, not_false_eq_true,
      if_true, unknown]
  | some order =>
    have known : handler.orderManager.orders.find? report.clientOrderId ≠ none := by
      rw [found]
      exact Option.some_ne_none order
    have result : (handler.onExecutionReport report).1 = (handler.positionManager.applyExecution report).1 := by
      simp only [ExecutionReportHandler.onExecutionReport, applyExecution_known found, not_true_eq_false, if_false]
    rw [result, PositionManager.applyExecution]
    split
    next refused =>
      refine iff_of_true rfl fun moves => ?_
      rw [ScaledValue.isZero_iff] at refused
      exact refused.elim (fun other => other moves.execType) moves.quantity
    next accepted =>
      rw [ScaledValue.isZero_iff, not_or, not_not] at accepted
      exact iff_of_false (Bool.noConfusion) (not_not_intro ⟨known, accepted.1, accepted.2⟩)

private theorem handle_orders (id : OrderId) : (handle handler (.report report)).orderManager.orders.find? id =
    if id = report.clientOrderId then (handler.orderManager.orders.find? id).map (reported · report)
    else handler.orderManager.orders.find? id := by
  have same : (handle handler (.report report)).orderManager = step handler.orderManager (.report report) := by
    cases found : handler.orderManager.orders.find? report.clientOrderId with
    | none =>
      simp only [handle, step, ExecutionReportHandler.onExecutionReport, applyExecution_unknown found, Bool.false_eq_true,
        not_false_eq_true, if_true]
    | some order =>
      simp only [handle, step, ExecutionReportHandler.onExecutionReport, applyExecution_known found, not_true_eq_false, if_false]
  rw [same]
  cases found : handler.orderManager.orders.find? report.clientOrderId with
  | none =>
    simp only [step, applyExecution_unknown found]
    split
    next own =>
      rw [own, found]
      rfl
    next => rfl
  | some order =>
    rw [find?_reported found]
    split
    next own =>
      rw [own, found]
      rfl
    next => rfl

/-- A refused report moves no position of either manager. The order it names, if
there is one, has taken its exchange id, status and filled quantity, and every
other order is as before. -/
theorem refused_changes (refused : (handler.onExecutionReport report).1 = false) :
    (handler.onExecutionReport report).2.orderManager.position = handler.orderManager.position ∧
    (handler.onExecutionReport report).2.positionManager = handler.positionManager ∧
    ∀ id, (handler.onExecutionReport report).2.orderManager.orders.find? id =
      if id = report.clientOrderId then (handler.orderManager.orders.find? id).map (reported · report)
      else handler.orderManager.orders.find? id := by
  obtain ⟨position, positions⟩ := handle_stays (refused_iff.mp refused)
  exact ⟨position, positions, handle_orders⟩

end Refused

/-- One open order. -/
def opened : ExecutionReportHandler := { orderManager := (({} : OrderManager).createOrder ⟨1, .buy, .limit, ⟨100⟩, ⟨5⟩⟩).2 }

def cancellation : ExecutionReport := { clientOrderId := 1, exchangeOrderId := 9, execType := .cancel, status := .cancelled }

theorem refused_changes_cancellation :
    (opened.onExecutionReport cancellation).2.orderManager.position = opened.orderManager.position ∧
    (opened.onExecutionReport cancellation).2.positionManager = opened.positionManager ∧
    ∀ id, (opened.onExecutionReport cancellation).2.orderManager.orders.find? id =
      if id = cancellation.clientOrderId then (opened.orderManager.orders.find? id).map (reported · cancellation)
      else opened.orderManager.orders.find? id :=
  refused_changes (by decide)

/-- The handler answers that it refuses the cancellation, and the order is
cancelled. -/
theorem refused_report_cancels : (opened.onExecutionReport cancellation).1 = false ∧
    (opened.orderManager.orders.find? 1).map Order.status = some .new ∧
    ((opened.onExecutionReport cancellation).2.orderManager.orders.find? 1).map Order.status = some .cancelled := by
  decide

end FinanceTech.Proofs.LedgerAgreement
