import FinanceTech.Library.Runs
import FinanceTech.Proofs.MatchingSteps

/-! No sequence of orders makes the engine follow a pointer to nothing, and its
index, level maps and lists describe the same resting orders after all of them. -/

namespace FinanceTech.Proofs.MatchingRepresentation
open List Library Matching Matching.Pointer MatchingLoops MatchingPointers MatchingSteps

theorem initial : Valid {} := by
  refine ⟨⟨.nil, by simp⟩, ⟨.nil, by simp⟩, ⟨nodupKeys_nil, Finmap.toFinmap_nil.symm, nodup_nil, by simp⟩⟩

theorem handleOrderNew_eq (engine : MatchingEngine) (order : Order) : engine.handleOrderNew order =
    if (engine.matchOrder order).1.quantity = 0 then (engine.matchOrder order).2
    else if (engine.matchOrder order).1.orderId ∈ (engine.matchOrder order).2.orderByIDMap then (engine.matchOrder order).2
    else (engine.matchOrder order).2.insertOrder (engine.matchOrder order).1 := rfl

/-- A new order ends filled, dropped because its id rests, or at the back of
its own level. -/
theorem handleOrderNew_cases {engine : MatchingEngine} (valid : Valid engine) (order : Order) :
    ((engine.matchOrder order).1.quantity = 0 ∨
        (engine.matchOrder order).1.orderId ∈ (engine.matchOrder order).2.orderByIDMap) ∧
      engine.handleOrderNew order = (engine.matchOrder order).2 ∨
    (engine.matchOrder order).1.quantity ≠ 0 ∧
      (engine.matchOrder order).1.orderId ∉ (engine.matchOrder order).2.orderByIDMap ∧
      ∃ position, Inserted (engine.matchOrder order).2 (engine.matchOrder order).1 position (engine.handleOrderNew order) ∧
        Valid (engine.handleOrderNew order) := by
  rw [handleOrderNew_eq]
  by_cases filled : (engine.matchOrder order).1.quantity = 0
  · exact .inl ⟨.inl filled, if_pos filled⟩
  · rw [if_neg filled]
    by_cases present : (engine.matchOrder order).1.orderId ∈ (engine.matchOrder order).2.orderByIDMap
    · exact .inl ⟨.inr present, if_pos present⟩
    · rw [if_neg present]
      exact .inr ⟨filled, present, insertOrder_inserts (matchOrder_valid valid order) present⟩

private theorem handleOrderNew_valid {engine : MatchingEngine} (valid : Valid engine) (order : Order) :
    Valid (engine.handleOrderNew order) := by
  rcases handleOrderNew_cases valid order with ⟨-, same⟩ | ⟨-, -, position, -, after⟩
  · exact same ▸ matchOrder_valid valid order
  · exact after

/-- No order of this id rests on the order's own side. -/
def Unknown (engine : MatchingEngine) (order : Order) : Prop :=
  ∀ position : Position, position.At engine → position.node.order.orderId = order.orderId → position.side ≠ order.side

theorem unknown_of_none {engine : MatchingEngine} (valid : Valid engine) {order : Order}
    (missing : engine.orderByIDMap.lookup order.orderId = none) : Unknown engine order := by
  intro position at' id
  have found := indexed valid at'
  rw [id, missing] at found
  cases found

theorem unknown_of_side {engine : MatchingEngine} (valid : Valid engine) {order : Order} {position : Position}
    (at' : position.At engine) (id : position.node.order.orderId = order.orderId) (side : position.node.order.side ≠ order.side) :
    Unknown engine order := by
  intro other there named same
  have first := indexed valid at'
  have second := indexed valid there
  rw [id] at first
  rw [named, first] at second
  have read := at'.order? valid
  rw [Option.some.inj second, there.order? valid] at read
  apply side
  rw [← Option.some.inj read, there.side, same]

/-- A cancel removes the order it names from its own side, or does nothing. -/
private theorem handleOrderCancel_cases {engine : MatchingEngine} (valid : Valid engine) (order : Order) :
    Unknown engine order ∧ engine.handleOrderCancel order = some engine ∨
      ∃ position next, position.At engine ∧ position.node.order.orderId = order.orderId ∧ position.side = order.side ∧
        engine.handleOrderCancel order = some next ∧ Cancelled engine position next := by
  rw [MatchingEngine.handleOrderCancel]
  cases found : engine.orderByIDMap.lookup order.orderId with
  | none => exact .inl ⟨unknown_of_none valid found, rfl⟩
  | some block =>
    obtain ⟨position, at', id, rfl⟩ := locate valid found
    simp only [at'.order? valid, Option.bind_eq_bind, Option.bind_some]
    by_cases same : order.side = position.node.order.side
    · obtain ⟨next, ran, cancelled⟩ := cancelOrder_cancels valid at'
      rw [if_pos same, ← id]
      exact .inr ⟨position, next, at', rfl, (same.trans at'.side).symm, ran, cancelled⟩
    · exact .inl ⟨unknown_of_side valid at' id (Ne.symm same), if_neg same⟩

/-- An amend does nothing, moves the order like a cancel followed by a new
order, or replaces its quantity in place. -/
private theorem handleOrderAmend_cases {engine : MatchingEngine} (valid : Valid engine) (order : Order) :
    Unknown engine order ∧ engine.handleOrderAmend order = some engine ∨
      ∃ position, position.At engine ∧ position.node.order.orderId = order.orderId ∧ position.side = order.side ∧
        ((position.node.order.price ≠ order.price ∧ ∃ next, Cancelled engine position next ∧
            engine.handleOrderAmend order = some (next.handleOrderNew order)) ∨
          (position.node.order.price = order.price ∧ ∃ next, Requantified engine position order.quantity next ∧
            engine.handleOrderAmend order = some next)) := by
  rw [MatchingEngine.handleOrderAmend]
  cases found : engine.orderByIDMap.lookup order.orderId with
  | none => exact .inl ⟨unknown_of_none valid found, rfl⟩
  | some block =>
    obtain ⟨position, at', id, rfl⟩ := locate valid found
    simp only [at'.order? valid, Option.bind_eq_bind, Option.bind_some]
    by_cases side : position.node.order.side = order.side
    · rw [if_neg (not_not.mpr side)]
      refine .inr ⟨position, at', id, at'.side.symm.trans side, ?_⟩
      by_cases price : position.node.order.price = order.price
      · rw [if_neg (not_not.mpr price), at'.level? valid]
        exact .inr ⟨price, _, requantify valid at' order.quantity, rfl⟩
      · obtain ⟨next, ran, cancelled⟩ := cancelOrder_cancels valid at'
        rw [if_pos price, ← id, ran]
        exact .inl ⟨price, next, cancelled, rfl⟩
    · exact .inl ⟨unknown_of_side valid at' id side, if_pos side⟩

/-- What one order can do to the engine. -/
inductive Processed (engine : MatchingEngine) (order : Order) : MatchingEngine → Prop
  | ignored (other : order.action ≠ .new) (unknown : order.action = .cancel ∨ order.action = .amend → Unknown engine order) :
    Processed engine order engine
  | submitted (new : order.action = .new) : Processed engine order (engine.handleOrderNew order)
  | cancelled {position : Position} {next : MatchingEngine} (cancel : order.action = .cancel)
    (at' : position.At engine) (id : position.node.order.orderId = order.orderId) (side : position.side = order.side)
    (gone : Cancelled engine position next) : Processed engine order next
  | moved {position : Position} {cancelled : MatchingEngine} (amend : order.action = .amend)
    (at' : position.At engine) (id : position.node.order.orderId = order.orderId) (side : position.side = order.side)
    (price : position.node.order.price ≠ order.price) (gone : Cancelled engine position cancelled) :
    Processed engine order (cancelled.handleOrderNew order)
  | requantified {position : Position} {next : MatchingEngine} (amend : order.action = .amend)
    (at' : position.At engine) (id : position.node.order.orderId = order.orderId) (side : position.side = order.side)
    (price : position.node.order.price = order.price) (changed : Requantified engine position order.quantity next) :
    Processed engine order next

section Processed

variable {engine next : MatchingEngine} {order : Order}

theorem processOrder_new (engine : MatchingEngine) (new : order.action = .new) :
    engine.processOrder order = some (engine.handleOrderNew order) := by
  rw [MatchingEngine.processOrder, new]

theorem processOrder_processes (valid : Valid engine) (order : Order) :
    ∃ next, engine.processOrder order = some next ∧ Processed engine order next := by
  rw [MatchingEngine.processOrder]
  cases action : order.action with
  | new => exact ⟨_, rfl, .submitted action⟩
  | cancel =>
    have other : order.action ≠ .new := by simp [action]
    rcases handleOrderCancel_cases valid order with ⟨unknown, same⟩ | ⟨position, next, at', id, side, same, gone⟩
    · exact ⟨engine, same, .ignored other fun _ => unknown⟩
    · exact ⟨next, same, .cancelled action at' id side gone⟩
  | amend =>
    have other : order.action ≠ .new := by simp [action]
    rcases handleOrderAmend_cases valid order with ⟨unknown, same⟩ | ⟨position, at', id, side, amends⟩
    · exact ⟨engine, same, .ignored other fun _ => unknown⟩
    · rcases amends with ⟨price, cancelled, gone, same⟩ | ⟨price, next, changed, same⟩
      · exact ⟨_, same, .moved action at' id side price gone⟩
      · exact ⟨next, same, .requantified action at' id side price changed⟩
  | recovery | recoveryEnd =>
    have other : order.action ≠ .new := by simp [action]
    exact ⟨engine, rfl, .ignored other fun either => by simp [action] at either⟩

theorem processOrder_processed (valid : Valid engine) (ran : engine.processOrder order = some next) :
    Processed engine order next := by
  obtain ⟨reached, same, processed⟩ := processOrder_processes valid order
  exact Option.some.inj (same.symm.trans ran) ▸ processed

theorem Processed.valid (processed : Processed engine order next) (valid : Valid engine) : Valid next := by
  cases processed with
  | ignored => exact valid
  | submitted => exact handleOrderNew_valid valid order
  | cancelled cancel at' id side gone => exact gone.valid valid at'
  | moved amend at' id side price gone => exact handleOrderNew_valid (gone.valid valid at') order
  | requantified amend at' id side price changed => exact changed.valid valid at'

theorem processOrder_valid (valid : Valid engine) (order : Order) :
    ∃ next, engine.processOrder order = some next ∧ Valid next := by
  obtain ⟨next, ran, processed⟩ := processOrder_processes valid order
  exact ⟨next, ran, processed.valid valid⟩

end Processed

theorem processOrders_valid (orders : List Order) :
    ∃ engine, MatchingEngine.processOrders {} orders = some engine ∧ Valid engine :=
  Runs.foldlM_succeeds (fun _ order valid => processOrder_valid valid order) orders initial

theorem reached_valid {orders : List Order} {engine : MatchingEngine}
    (reached : MatchingEngine.processOrders {} orders = some engine) : Valid engine := by
  obtain ⟨final, same, valid⟩ := processOrders_valid orders
  rw [reached] at same
  exact Option.some.inj same ▸ valid

/-- All nodes that rest in the book. -/
def restingNodes (engine : MatchingEngine) : List Node :=
  PriceLevelMap.nodes (engine.bidPriceLevelMap ++ engine.askPriceLevelMap)

/-- A reference block that leads to the order of this id: to the order, to its
node in the level's list, and to the level stored under the order's own price on
the order's own side. -/
structure LeadsTo (engine : MatchingEngine) (id : OrderID) (block : ReferencesBlock) (node : Node) (level : PriceLevel) : Prop where
  named : node.order.orderId = id
  addresses : block = ⟨node.pointer, node.iter, level.address⟩
  pointer : engine.order? block.order = some node.order
  iterator : level.orders.find? (fun resting => resting.iter = block.iterPriceLevelOrder) = some node
  levelPointer : engine.level? block.priceLevel = some level
  stored : (engine.levels node.order.side).dlookup node.order.price = some level

structure Representation (engine : MatchingEngine) : Prop where
  indexed : ∀ id, id ∈ engine.orderByIDMap ↔ ∃ node ∈ restingNodes engine, node.order.orderId = id
  once : ((restingNodes engine).map fun node => node.order.orderId).Nodup
  leads : ∀ id block, engine.orderByIDMap.lookup id = some block → ∃ node level, LeadsTo engine id block node level
  apart : (footprint (engine.bidPriceLevelMap ++ engine.askPriceLevelMap)).Nodup
  stocked : ∀ side, ∀ entry ∈ engine.levels side, entry.2.orders ≠ []
  bids : engine.bidPriceLevelMap.Pairwise fun first second => first.1 > second.1
  asks : engine.askPriceLevelMap.Pairwise fun first second => first.1 < second.1

theorem references_keys (levels : PriceLevelMap) :
    (references levels).keys = (PriceLevelMap.nodes levels).map fun node => node.order.orderId := by
  induction levels with
  | nil => rfl
  | cons entry rest ih =>
    rw [references_cons, keys_append, ih, nodes_cons, map_append, keys, map_map]
    rfl

private theorem leadsTo {engine : MatchingEngine} (valid : Valid engine) {position : Position} (at' : position.At engine) :
    LeadsTo engine position.node.order.orderId position.block position.node position.level := by
  refine ⟨rfl, rfl, at'.order? valid, ?_, at'.level? valid, ?_⟩
  · refine find?_unique at'.node_mem (by simp [Position.block]) ?_
    intro other member same
    rw [at'.orders] at member
    rcases mem_cons.mp (perm_middle.mem_iff.mp member) with rfl | member
    · rfl
    · refine absurd (of_decide_eq_true same) (at'.apart valid Node.iter iters_sublist other ?_)
      rw [← append_assoc]
      exact mem_append_left _ member
  · rw [at'.side]
    exact mem_dlookup (valid.side position.side).sorted.nodupKeys at'.entry_mem

private theorem representation {engine : MatchingEngine} (valid : Valid engine) : Representation engine where
  indexed id := by
    rw [valid.linked.index, FiniteMap.mem_toFinmap, references_keys, mem_map]
    rfl
  once := by
    rw [restingNodes, ← references_keys]
    exact valid.linked.unique
  leads id block found := by
    obtain ⟨position, at', rfl, rfl⟩ := locate valid found
    exact ⟨position.node, position.level, leadsTo valid at'⟩
  apart := valid.linked.addresses
  stocked side entry member := ((valid.side side).stocked entry member).1
  bids := valid.bids.sorted
  asks := valid.asks.sorted

theorem processOrders_representation (orders : List Order) :
    ∃ engine, MatchingEngine.processOrders {} orders = some engine ∧ Representation engine := by
  obtain ⟨engine, reached, valid⟩ := processOrders_valid orders
  exact ⟨engine, reached, representation valid⟩

end FinanceTech.Proofs.MatchingRepresentation
