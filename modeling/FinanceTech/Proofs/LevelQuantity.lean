import FinanceTech.Proofs.MatchingRepresentation

/-! The quantity a price level keeps follows inserts, cancels and amends, but no
fill: it stays right exactly as long as matching empties every level it takes a
quantity from. -/

namespace FinanceTech.Proofs.LevelQuantity
open List Library Matching Matching.Pointer Matching.Pointer.MatchState
open MatchingLoops MatchingPointers MatchingSteps MatchingRepresentation

/-- What the orders in these nodes want together. -/
def total (nodes : List Node) : Nat := (nodes.map fun node => node.order.quantity.toNat).sum

@[simp] theorem total_nil : total [] = 0 := rfl

@[simp] theorem total_cons (node : Node) (rest : List Node) :
    total (node :: rest) = node.order.quantity.toNat + total rest := by
  simp only [total, map_cons, sum_cons]

@[simp] theorem total_append (first second : List Node) : total (first ++ second) = total first + total second := by
  simp only [total, map_append, sum_append]

/-- The stored quantity of each level is the sum over its orders. -/
def Tracks (levels : PriceLevelMap) : Prop := ∀ entry ∈ levels, entry.2.quantity.toNat = total entry.2.orders

def LevelQuantities (engine : MatchingEngine) : Prop := ∀ side, Tracks (engine.levels side)

/-- Every level total is a 32-bit number. -/
def TotalsFit (engine : MatchingEngine) : Prop := ∀ side, ∀ entry ∈ engine.levels side, total entry.2.orders < 2 ^ 32

def TakesWhole (side : OrderSide) (price : Price) : Nat → PriceLevelMap → Prop
  | _, [] => True
  | left, ⟨best, level⟩ :: rest => 0 < left ∧ crosses side best price = true →
    total level.orders ≤ left ∧ TakesWhole side price (left - total level.orders) rest

/-- Whether an amend takes a resting order to another price, where it is matched
again. -/
def moves (engine : MatchingEngine) (order : Order) : Bool :=
  match (engine.orderByIDMap.lookup order.orderId).bind fun block => engine.order? block.order with
  | none => false
  | some resting => resting.side = order.side ∧ resting.price ≠ order.price

def isMatched (engine : MatchingEngine) (order : Order) : Bool :=
  match order.action with
  | .new => true
  | .amend => moves engine order
  | .cancel | .recovery | .recoveryEnd => false

/-- An order that is matched never stops inside a level. -/
def NeverInside (engine : MatchingEngine) (order : Order) : Prop :=
  isMatched engine order = true → TakesWhole order.side order.price order.quantity.toNat (engine.levels order.side.opposite)

theorem matchOrderList_total (state : MatchState) (nodes : List Node) :
    (matchOrderList state nodes).1.order.quantity.toNat = state.order.quantity.toNat - total nodes ∧
      total (matchOrderList state nodes).2 = total nodes - state.order.quantity.toNat ∧
      ((matchOrderList state nodes).2 = [] ↔ total nodes ≤ state.order.quantity.toNat) := by
  induction nodes generalizing state with
  | nil => simp [matchOrderList]
  | cons node rest ih =>
    rw [matchOrderList, total_cons, addTrade_order, addTrade_index]
    split
    next fits =>
      have lower := UInt64.le_iff_toNat_le.mp fits
      obtain ⟨left, remains, emptied⟩ := ih { state.addTrade node.order with
        order.quantity := state.order.quantity - node.order.quantity
        orderByIDMap := state.orderByIDMap.erase node.order.orderId }
      simp only [addTrade_order, UInt64.toNat_sub_of_le _ _ fits] at left remains emptied
      refine ⟨?_, ?_, ?_⟩
      · rw [left]
        omega
      · rw [remains]
        omega
      · rw [emptied]
        omega
    next larger =>
      have short := UInt64.lt_iff_toNat_lt.mp (UInt64.not_le.mp larger)
      have within : state.order.quantity ≤ node.order.quantity := UInt64.le_of_lt (UInt64.not_le.mp larger)
      refine ⟨?_, ?_, ?_⟩
      · show (0 : UInt64).toNat = _
        rw [UInt64.toNat_zero]
        omega
      · rw [total_cons, UInt64.toNat_sub_of_le _ _ within]
        omega
      · simp only [reduceCtorEq, false_iff]
        omega

/-- Matching keeps the stored quantities right exactly when it takes whole
levels: one that outlives a fill keeps its old quantity. -/
private theorem matchLevels_tracks {state : MatchState} {levels : PriceLevelMap} (tracks : Tracks levels) :
    Tracks (matchLevels state levels).2 ↔
      TakesWhole state.order.side state.order.price state.order.quantity.toNat levels := by
  induction levels generalizing state with
  | nil => exact ⟨fun _ => trivial, fun _ => tracks⟩
  | cons entry rest ih =>
    obtain ⟨here, others⟩ := forall_mem_cons.mp tracks
    obtain ⟨left, remains, emptied⟩ := matchOrderList_total state entry.2.orders
    obtain ⟨quantity, same⟩ := matchOrderList_order state entry.2.orders
    rw [matchLevels_cons, TakesWhole]
    by_cases runs : 0 < state.order.quantity ∧ crosses state.order.side entry.1 state.order.price = true
    · have positive : 0 < state.order.quantity.toNat := UInt64.lt_iff_toNat_lt.mp runs.1
      rw [if_pos runs]
      by_cases whole : total entry.2.orders ≤ state.order.quantity.toNat
      · have after := @ih (matchOrderList state entry.2.orders).1 others
        rw [left] at after
        rw [if_pos (emptied.mpr whole), after, same]
        exact ⟨fun next _ => ⟨whole, next⟩, fun next => (next ⟨positive, runs.2⟩).2⟩
      · rw [if_neg (mt emptied.mp whole)]
        constructor
        · intro drifted
          have stale : entry.2.quantity.toNat = total (matchOrderList state entry.2.orders).2 := drifted _ mem_cons_self
          omega
        · intro next
          exact absurd (next ⟨positive, runs.2⟩).1 whole
    · rw [if_neg runs]
      refine ⟨fun _ reaches => absurd ⟨UInt64.lt_iff_toNat_lt.mpr reaches.1, reaches.2⟩ runs, fun _ => tracks⟩

variable {engine : MatchingEngine} {order : Order} {position : Position} {next : MatchingEngine}

private theorem levelQuantities_of_sides (side : OrderSide) (own : Tracks (engine.levels side))
    (other : Tracks (engine.levels side.opposite)) : LevelQuantities engine := by
  intro wanted
  cases side <;> cases wanted <;> assumption

private theorem tracks_around {entries : PriceLevelMap} (at' : position.At engine) (tracks : Tracks (engine.levels position.side))
    (inside : Tracks entries) : Tracks (position.around entries) := by
  rw [at'.levels] at tracks
  intro entry member
  rw [Position.around, append_assoc] at member
  rcases mem_append.mp member with member | member
  · exact tracks entry (mem_append_left _ member)
  · rcases mem_append.mp member with member | member
    · exact inside entry member
    · exact tracks entry (mem_append_right _ (mem_cons_of_mem _ member))

private theorem position_total (at' : position.At engine) (tracks : Tracks (engine.levels position.side)) :
    position.level.quantity.toNat = total position.before + position.node.order.quantity.toNat + total position.after := by
  have held := tracks _ at'.entry_mem
  rw [held, at'.orders, total_append, total_cons, Nat.add_assoc]

private theorem position_within (at' : position.At engine) (tracks : Tracks (engine.levels position.side)) :
    position.node.order.quantity ≤ position.level.quantity.toUInt64 := by
  have whole := position_total at' tracks
  rw [UInt64.le_iff_toNat_le, UInt32.toNat_toUInt64]
  omega

private theorem requantified_total (position : Position) (quantity : Quantity) : total (requantified position quantity).orders =
    total position.before + quantity.toNat + total position.after := by
  rw [requantified, total_append, total_cons, Nat.add_assoc]

private theorem Cancelled.levelQuantities (cancelled : Cancelled engine position next) (at' : position.At engine)
    (tracks : LevelQuantities engine) : LevelQuantities next := by
  have whole := position_total at' (tracks position.side)
  have within := position_within at' (tracks position.side)
  have bound := position.level.quantity.toNat_lt
  apply levelQuantities_of_sides position.side
  · rw [cancelled.own]
    apply tracks_around at' (tracks position.side)
    rw [remaining]
    split
    next => exact fun entry member => absurd member not_mem_nil
    next =>
      intro entry member
      obtain rfl := mem_singleton.mp member
      rw [UInt64.toNat_toUInt32, UInt64.toNat_sub_of_le _ _ within, UInt32.toNat_toUInt64, total_append]
      omega
  · rw [cancelled.other]
    exact tracks position.side.opposite

theorem Requantified.levelQuantities {quantity : Quantity} (amended : Requantified engine position quantity next)
    (at' : position.At engine) (tracks : LevelQuantities engine) (fit : TotalsFit next) : LevelQuantities next := by
  have whole := position_total at' (tracks position.side)
  have within := position_within at' (tracks position.side)
  have bound := position.level.quantity.toNat_lt
  have small := fit position.side
  rw [amended.own] at small
  have fits := small ⟨position.node.order.price, requantified position quantity⟩
    (mem_append_left _ (mem_append_right _ mem_cons_self))
  rw [requantified_total] at fits
  apply levelQuantities_of_sides position.side
  · rw [amended.own]
    apply tracks_around at' (tracks position.side)
    intro entry member
    obtain rfl := mem_singleton.mp member
    rw [requantified_total, requantified, UInt64.toNat_toUInt32, UInt64.toNat_add, UInt32.toNat_toUInt64,
      UInt64.toNat_toUInt32, UInt64.toNat_sub_of_le _ _ within, UInt32.toNat_toUInt64]
    omega
  · rw [amended.other]
    exact tracks position.side.opposite

theorem Inserted.tracks (inserted : Inserted engine order position next) (tracks : Tracks (engine.levels order.side))
    (fit : TotalsFit next) : Tracks (next.levels order.side) := by
  have levels := inserted.at'.levels
  have orders := inserted.at'.orders
  have side := inserted.at'.side
  rw [inserted.held] at levels side
  rw [← side] at levels
  rw [inserted.last] at orders
  have small := fit order.side
  rw [levels] at small
  have fits := small _ (mem_append_right _ mem_cons_self)
  rw [orders, total_append, total_cons, total_nil, inserted.held] at fits
  obtain ⟨quantity, kept, source⟩ := inserted.source
  have grown : ∀ rest : PriceLevelMap, Tracks (position.front ++ rest ++ position.back) → quantity.toNat = total position.before →
      Tracks (next.levels order.side) := by
    intro rest before same
    rw [levels]
    intro entry member
    rcases mem_append.mp member with member | member
    · exact before entry (mem_append_left _ (mem_append_left _ member))
    · rcases mem_cons.mp member with rfl | member
      · rw [kept, orders, UInt64.toNat_toUInt32, UInt64.toNat_add, UInt32.toNat_toUInt64, total_append, total_cons,
          total_nil, inserted.held]
        omega
      · exact before entry (mem_append_right _ member)
  rcases source with source | ⟨source, empty, zero⟩
  · rw [source] at tracks
    exact grown _ tracks (tracks _ (mem_append_left _ (mem_append_right _ mem_cons_self)))
  · rw [source] at tracks
    refine grown _ tracks ?_
    rw [zero, empty]
    rfl

private theorem handleOrderNew_levelQuantities (valid : Valid engine) (tracks : LevelQuantities engine)
    (fit : TotalsFit (engine.handleOrderNew order)) : LevelQuantities (engine.handleOrderNew order) ↔
      TakesWhole order.side order.price order.quantity.toNat (engine.levels order.side.opposite) := by
  have matched := @matchLevels_tracks ⟨order, engine.orderByIDMap, engine.trades⟩ _ (tracks order.side.opposite)
  rw [← matchOrder_opposite] at matched
  have own : Tracks ((engine.matchOrder order).2.levels order.side) := by
    rw [matchOrder_own]
    exact tracks order.side
  obtain ⟨quantity, taker⟩ := matchOrder_order engine order
  rcases handleOrderNew_cases valid order with ⟨-, same⟩ | ⟨-, -, position, inserted, -⟩
  · rw [same]
    exact ⟨fun all => matched.mp (all _), fun whole => levelQuantities_of_sides order.side own (matched.mpr whole)⟩
  · have other := inserted.other
    have rested := Inserted.tracks inserted
    rw [taker] at other rested
    rw [← matched, ← other]
    exact ⟨fun all => all _, fun whole => levelQuantities_of_sides order.side (rested own fit) whole⟩

theorem moves_iff (valid : Valid engine) (at' : position.At engine) (id : position.node.order.orderId = order.orderId)
    (side : position.side = order.side) : moves engine order = true ↔ position.node.order.price ≠ order.price := by
  have found := indexed valid at'
  rw [id] at found
  rw [moves, found, Option.bind_some, at'.order? valid]
  simp [at'.side, side]

theorem moves_unknown (valid : Valid engine) (unknown : Unknown engine order) : moves engine order = false := by
  rw [moves]
  cases found : engine.orderByIDMap.lookup order.orderId with
  | none => rfl
  | some block =>
    obtain ⟨position, at', id, rfl⟩ := locate valid found
    have apart := unknown position at' id
    rw [← at'.side] at apart
    rw [Option.bind_some, at'.order? valid]
    simp [apart]

theorem isMatched_new (new : order.action = .new) : isMatched engine order = true := by rw [isMatched, new]

theorem isMatched_cancel (cancel : order.action = .cancel) : isMatched engine order = false := by rw [isMatched, cancel]

theorem isMatched_ignored (valid : Valid engine) (other : order.action ≠ .new)
    (unknown : order.action = .cancel ∨ order.action = .amend → Unknown engine order) : isMatched engine order = false := by
  rw [isMatched]
  cases action : order.action with
  | new => exact absurd action other
  | amend => exact moves_unknown valid (unknown (.inr action))
  | cancel | recovery | recoveryEnd => rfl

theorem isMatched_moved (valid : Valid engine) (amend : order.action = .amend) (at' : position.At engine)
    (id : position.node.order.orderId = order.orderId) (side : position.side = order.side)
    (price : position.node.order.price ≠ order.price) : isMatched engine order = true := by
  rw [isMatched, amend]
  exact (moves_iff valid at' id side).mpr price

theorem isMatched_requantified (valid : Valid engine) (amend : order.action = .amend) (at' : position.At engine)
    (id : position.node.order.orderId = order.orderId) (side : position.side = order.side)
    (price : position.node.order.price = order.price) : isMatched engine order = false := by
  rw [isMatched, amend, Bool.eq_false_iff]
  exact fun moves => (moves_iff valid at' id side).mp moves price

/-- One order keeps the stored quantities right exactly when it never stops
inside a level. -/
private theorem processOrder_levelQuantities (valid : Valid engine) (ran : engine.processOrder order = some next)
    (fit : TotalsFit next) (tracks : LevelQuantities engine) : LevelQuantities next ↔ NeverInside engine order := by
  have never : isMatched engine order = false → NeverInside engine order := by
    intro quiet matched
    exact absurd (quiet.symm.trans matched) Bool.false_ne_true
  cases processOrder_processed valid ran with
  | ignored other unknown => exact ⟨fun _ => never (isMatched_ignored valid other unknown), fun _ => tracks⟩
  | submitted new =>
    rw [handleOrderNew_levelQuantities valid tracks fit]
    exact ⟨fun whole _ => whole, fun whole => whole (isMatched_new new)⟩
  | cancelled cancel at' id side gone =>
    exact ⟨fun _ => never (isMatched_cancel cancel), fun _ => Cancelled.levelQuantities gone at' tracks⟩
  | moved amend at' id side price gone =>
    have matched := isMatched_moved valid amend at' id side price
    have other := gone.other
    rw [side] at other
    rw [handleOrderNew_levelQuantities (gone.valid valid at') (Cancelled.levelQuantities gone at' tracks) fit, other]
    exact ⟨fun whole _ => whole, fun whole => whole matched⟩
  | requantified amend at' id side price changed =>
    have quiet := isMatched_requantified valid amend at' id side price
    exact ⟨fun _ => never quiet, fun _ => Requantified.levelQuantities changed at' tracks fit⟩

/-- While every level total is a 32-bit number, the levels of every reached state
store the sums of their orders exactly when no order that is matched stops
inside a level. -/
theorem level_quantity_iff (orders : List Order)
    (fit : ∀ before engine, before <+: orders → MatchingEngine.processOrders {} before = some engine → TotalsFit engine) :
    (∀ before engine, before <+: orders → MatchingEngine.processOrders {} before = some engine → LevelQuantities engine) ↔
      ∀ before order after engine, orders = before ++ order :: after →
        MatchingEngine.processOrders {} before = some engine → NeverInside engine order := by
  refine @Runs.foldlM_throughout_iff _ _ MatchingEngine.processOrder (fun engine => Valid engine ∧ TotalsFit engine)
    LevelQuantities NeverInside orders {} ?_ ?_ ?_
  · intro side
    cases side <;> exact fun entry member => absurd member not_mem_nil
  · intro before inside
    obtain ⟨engine, reached, valid⟩ := processOrders_valid before
    exact ⟨engine, reached, valid, fit before engine inside reached⟩
  · intro engine order next first second ran tracks
    exact processOrder_levelQuantities first.1 ran second.2 tracks

/-- An offer of ten with four taken from it. -/
def partlyTaken : List Order := [⟨.sell, .new, 1, 100, 10⟩, ⟨.buy, .new, 2, 100, 4⟩]

private theorem partlyTaken_fits (before : List Order) (engine : MatchingEngine) (inside : before <+: partlyTaken)
    (reached : MatchingEngine.processOrders {} before = some engine) : TotalsFit engine := by
  have fits : ∀ before ∈ partlyTaken.inits, ∀ entry ∈ ((MatchingEngine.processOrders {} before).getD {}).bidPriceLevelMap ++
      ((MatchingEngine.processOrders {} before).getD {}).askPriceLevelMap, total entry.2.orders < 2 ^ 32 := by decide
  have within := fits before ((mem_inits _ _).mpr inside)
  rw [reached, Option.getD_some] at within
  intro side entry member
  apply within
  cases side with
  | buy => exact mem_append_left _ member
  | sell => exact mem_append_right _ member

theorem level_quantity_iff_partly_taken :
    (∀ before engine, before <+: partlyTaken → MatchingEngine.processOrders {} before = some engine →
        LevelQuantities engine) ↔
      ∀ before order after engine, partlyTaken = before ++ order :: after →
        MatchingEngine.processOrders {} before = some engine → NeverInside engine order :=
  level_quantity_iff partlyTaken partlyTaken_fits

/-- The level keeps the ten that were offered, and six rest on it. -/
theorem fill_keeps_quantity : (∀ order ∈ partlyTaken, order.quantity < 2 ^ 32) ∧
    (∀ before engine, before <+: partlyTaken → MatchingEngine.processOrders {} before = some engine → TotalsFit engine) ∧
    ∃ engine level, MatchingEngine.processOrders {} partlyTaken = some engine ∧ engine.levels .sell = [⟨100, level⟩] ∧
      level.quantity = 10 ∧ total level.orders = 6 ∧ ¬ LevelQuantities engine := by
  refine ⟨by decide, partlyTaken_fits, _, _, rfl, rfl, rfl, rfl, ?_⟩
  intro tracks
  exact absurd (tracks .sell _ mem_cons_self) (by decide)

end FinanceTech.Proofs.LevelQuantity
