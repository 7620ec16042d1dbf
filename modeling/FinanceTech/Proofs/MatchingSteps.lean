import FinanceTech.Proofs.MatchingPointers

/-! What each operation of the engine does to a well-formed engine. Callers use
these descriptions and never unfold an operation again. -/

namespace FinanceTech.Proofs.MatchingSteps
open List Library Matching Matching.Pointer MatchingLoops MatchingPointers

@[simp] theorem withIndex_levels (engine : MatchingEngine) (index : OrderIdMap) (side : OrderSide) :
    ({ engine with orderByIDMap := index } : MatchingEngine).levels side = engine.levels side := by cases side <;> rfl

@[simp] theorem withFresh_levels (engine : MatchingEngine) (fresh : Address) (side : OrderSide) :
    ({ engine with fresh } : MatchingEngine).levels side = engine.levels side := by cases side <;> rfl

@[simp] theorem matchOrder_own (engine : MatchingEngine) (order : Order) :
    (engine.matchOrder order).2.levels order.side = engine.levels order.side := by
  obtain ⟨side, action, id, price, quantity⟩ := order
  cases side <;> rfl

theorem matchOrder_opposite (engine : MatchingEngine) (order : Order) :
    (engine.matchOrder order).2.levels order.side.opposite =
      (MatchState.matchLevels ⟨order, engine.orderByIDMap, engine.trades⟩ (engine.levels order.side.opposite)).2 := by
  obtain ⟨side, action, id, price, quantity⟩ := order
  cases side <;> rfl

theorem matchOrder_index (engine : MatchingEngine) (order : Order) : (engine.matchOrder order).2.orderByIDMap =
    (MatchState.matchLevels ⟨order, engine.orderByIDMap, engine.trades⟩ (engine.levels order.side.opposite)).1.orderByIDMap :=
  rfl

theorem matchOrder_order (engine : MatchingEngine) (order : Order) :
    ∃ quantity, (engine.matchOrder order).1 = { order with quantity } :=
  matchLevels_order ⟨order, engine.orderByIDMap, engine.trades⟩ (engine.levels order.side.opposite)

@[simp] theorem matchOrder_fresh (engine : MatchingEngine) (order : Order) :
    (engine.matchOrder order).2.fresh = engine.fresh := setLevels_fresh engine _ order.side.opposite

theorem matchOrder_valid {engine : MatchingEngine} (valid : Valid engine) (order : Order) :
    Valid (engine.matchOrder order).2 := by
  have links := valid.links order.side.opposite
  have matched := valid.side order.side.opposite
  rw [opposite_opposite] at links
  refine Valid.of_sides order.side.opposite ?_ ?_ ?_
  · rw [matchOrder_opposite]
    exact ⟨matched.sorted.of_keys _ (matchLevels_keys _ _),
      matchLevels_keeps (fun price node => node.order.side = order.side.opposite ∧ node.order.price = price)
        (fun _ _ => Iff.rfl) _ matched.stocked⟩
  · rw [opposite_opposite, matchOrder_own]
    exact valid.side order.side
  · rw [opposite_opposite, matchOrder_own, matchOrder_opposite]
    have unique := links.unique
    have index := links.index
    rw [references_append] at unique index
    refine ⟨?_, ?_, ?_, ?_⟩
    · rw [references_append]
      exact unique.sublist ((matchLevels_references _ _).append (Sublist.refl _))
    · rw [references_append, matchOrder_index]
      exact matchLevels_index _ unique index
    · rw [footprint_append]
      refine links.addresses.sublist ?_
      rw [footprint_append]
      exact (matchLevels_footprint _ _).append (Sublist.refl _)
    · intro address member
      rw [matchOrder_fresh]
      apply links.bounded
      rw [footprint_append] at member ⊢
      exact ((matchLevels_footprint _ _).append (Sublist.refl _)).subset member

theorem position_of_mem {engine : MatchingEngine} (valid : Valid engine) {side : OrderSide} {entry : (_ : Price) × PriceLevel}
    {node : Node} (member : entry ∈ engine.levels side) (inside : node ∈ entry.2.orders) :
    ∃ position : Position, position.At engine ∧ position.side = side ∧ position.node = node ∧ position.level = entry.2 := by
  obtain ⟨onSide, price⟩ := ((valid.side side).stocked entry member).2 node inside
  obtain ⟨front, back, levels⟩ := append_of_mem member
  obtain ⟨before, after, orders⟩ := append_of_mem inside
  refine ⟨⟨side, front, entry.2, back, before, node, after⟩, ⟨?_, orders, onSide⟩, rfl, rfl, rfl⟩
  rw [levels, price]

theorem locate {engine : MatchingEngine} (valid : Valid engine) {id : OrderID} {block : ReferencesBlock}
    (found : engine.orderByIDMap.lookup id = some block) :
    ∃ position : Position, position.At engine ∧ position.node.order.orderId = id ∧ position.block = block := by
  rw [valid.linked.index, FiniteMap.lookup_toFinmap_eq_some valid.linked.unique] at found
  obtain ⟨entry, member, referenced⟩ := mem_flatMap.mp found
  obtain ⟨node, inside, same⟩ := mem_map.mp referenced
  have side : ∃ side, entry ∈ engine.levels side := by
    rcases mem_append.mp member with member | member
    · exact ⟨.buy, member⟩
    · exact ⟨.sell, member⟩
  obtain ⟨side, member⟩ := side
  obtain ⟨position, at', -, rfl, level⟩ := position_of_mem valid member inside
  refine ⟨position, at', congrArg Sigma.fst same, ?_⟩
  rw [Position.block, level]
  exact eq_of_heq (Sigma.mk.inj same).2

variable {engine : MatchingEngine} {position : Position}

theorem indexed (valid : Valid engine) (at' : position.At engine) :
    engine.orderByIDMap.lookup position.node.order.orderId = some position.block := by
  rw [valid.linked.index, FiniteMap.lookup_toFinmap_eq_some valid.linked.unique]
  refine mem_flatMap.mpr ⟨_, at'.perm.mem_iff.mpr mem_cons_self, ?_⟩
  exact mem_map.mpr ⟨position.node, at'.node_mem, rfl⟩

/-- Replacing the level of a position keeps the engine well formed when nothing
new appears in it and the index follows. -/
private theorem replaced_valid (valid : Valid engine) (at' : position.At engine) {next : MatchingEngine} {entries : PriceLevelMap}
    (own : next.levels position.side = position.around entries)
    (other : next.levels position.side.opposite = engine.levels position.side.opposite)
    (keys : entries.map Sigma.fst <+ [position.node.order.price])
    (stocked : ∀ entry ∈ entries, entry.2.orders ≠ [] ∧
      ∀ node ∈ entry.2.orders, node.order.side = position.side ∧ node.order.price = entry.1)
    (refs : references entries <+ position.level.orders.map (reference position.level.address))
    (prints : footprint entries <+ PriceLevel.footprint position.level)
    (index : next.orderByIDMap = (references (position.around entries ++ engine.levels position.side.opposite)).toFinmap)
    (fresh : next.fresh = engine.fresh) : Valid next := by
  have side := valid.side position.side
  have links := valid.links position.side
  have sorted := side.sorted
  rw [at'.levels] at links sorted
  refine Valid.of_sides position.side ⟨?_, ?_⟩ ?_ ⟨?_, ?_, ?_, ?_⟩
  · rw [own]
    refine sorted.of_keys _ ?_
    rw [Position.around, append_assoc, map_append, map_append, map_append, map_cons]
    exact (Sublist.refl _).append (keys.append (Sublist.refl _))
  · intro entry member
    rw [own, Position.around, append_assoc] at member
    rcases mem_append.mp member with member | member
    · exact side.stocked entry (at'.levels ▸ mem_append_left _ member)
    · rcases mem_append.mp member with member | member
      · exact stocked entry member
      · exact side.stocked entry (at'.levels ▸ mem_append_right _ (mem_cons_of_mem _ member))
  · rw [other]
    exact valid.side position.side.opposite
  · rw [own, other]
    refine links.unique.sublist ?_
    simp only [Position.around, references_append, references_cons, append_assoc]
    exact (Sublist.refl _).append (refs.append (Sublist.refl _))
  · rw [own, other]
    exact index
  · rw [own, other]
    refine links.addresses.sublist ?_
    simp only [Position.around, footprint_append, footprint_cons, append_assoc]
    exact (Sublist.refl _).append (prints.append (Sublist.refl _))
  · rw [own, other, fresh]
    intro address member
    apply links.bounded
    simp only [Position.around, footprint_append, footprint_cons, append_assoc] at member ⊢
    exact ((Sublist.refl _).append (prints.append (Sublist.refl _))).subset member

/-- What a level leaves behind when the order at the position is removed. -/
def remaining (position : Position) : PriceLevelMap :=
  if position.before ++ position.after = [] then [] else
    [⟨position.node.order.price, { position.level with
      orders := position.before ++ position.after
      quantity := (position.level.quantity.toUInt64 - position.node.order.quantity).toUInt32 }⟩]

structure Cancelled (engine : MatchingEngine) (position : Position) (next : MatchingEngine) : Prop where
  own : next.levels position.side = position.around (remaining position)
  other : next.levels position.side.opposite = engine.levels position.side.opposite
  index : next.orderByIDMap = engine.orderByIDMap.erase position.node.order.orderId
  trades : next.trades = engine.trades
  fresh : next.fresh = engine.fresh

theorem kerase_middle {front back : PriceLevelMap} {price : Price} {level : PriceLevel}
    (absent : price ∉ front.keys) : (front ++ ⟨price, level⟩ :: back).kerase price = front ++ back := by
  rw [kerase_append_right absent]
  exact congrArg (front ++ ·) (kerase_cons_eq rfl)

private theorem front_absent (valid : Valid engine) (at' : position.At engine) : position.node.order.price ∉ position.front.keys := by
  have unique := (valid.side position.side).sorted.nodupKeys
  rw [at'.levels, nodupKeys_middle] at unique
  intro inside
  exact notMem_keys_of_nodupKeys_cons unique (by rw [keys_append]; exact mem_append_left _ inside)

theorem cancelOrder_cancels (valid : Valid engine) (at' : position.At engine) :
    ∃ next, engine.cancelOrder position.node.order.orderId position.block = some next ∧ Cancelled engine position next := by
  let change : PriceLevel → PriceLevel := fun level => { level with
    orders := position.before ++ position.after
    quantity := (level.quantity.toUInt64 - position.node.order.quantity).toUInt32 }
  let index := engine.orderByIDMap.erase position.node.order.orderId
  let changed : MatchingEngine := { engine.modifyLevel position.level.address change with orderByIDMap := index }
  have alone := at'.level_alone valid
  have own : changed.levels position.side =
      position.front ++ ⟨position.node.order.price, change position.level⟩ :: position.back := by
    rw [withIndex_levels, modifyLevel_levels, at'.levels]
    exact Position.modify_middle change fun entry member => alone entry (mem_append_left _ member)
  have other : changed.levels position.side.opposite = engine.levels position.side.opposite := by
    rw [withIndex_levels, modifyLevel_levels]
    exact Position.modify_absent change fun entry member => alone entry (mem_append_right _ member)
  have run : engine.cancelOrder position.node.order.orderId position.block =
      if (position.before ++ position.after).isEmpty then
        some (changed.setLevels ((changed.levels position.node.order.side).kerase position.node.order.price)
          position.node.order.side)
      else some changed := by
    rw [MatchingEngine.cancelOrder, at'.order? valid, at'.level? valid, Option.bind_eq_bind, Option.bind_some,
      Option.bind_eq_bind, Option.bind_some, at'.eraseNode valid]
    rfl
  by_cases empty : position.before ++ position.after = []
  · rw [run, if_pos (List.isEmpty_iff.mpr empty), at'.side]
    refine ⟨_, rfl, ?_, ?_, ?_, ?_, ?_⟩
    · rw [setLevels_levels, own, kerase_middle (front_absent valid at'), Position.around, remaining, if_pos empty,
        append_nil]
    · rw [setLevels_opposite, other]
    · rw [setLevels_index]
    · rw [setLevels_trades]
      rfl
    · rw [setLevels_fresh]
      rfl
  · rw [run, if_neg (mt List.isEmpty_iff.mp empty)]
    refine ⟨changed, rfl, ?_, other, rfl, rfl, rfl⟩
    rw [own, Position.around, remaining, if_neg empty, append_assoc, singleton_append]

/-- The references of a side around the position, before and after. -/
private theorem remaining_references (position : Position) : references (remaining position) =
    (position.before ++ position.after).map (reference position.level.address) := by
  rw [remaining]
  split
  next empty => rw [empty]; rfl
  next => exact append_nil _

private theorem remaining_footprint {position : Position}
    (orders : position.level.orders = position.before ++ position.node :: position.after) :
    footprint (remaining position) <+ PriceLevel.footprint position.level := by
  rw [remaining]
  split
  next => exact nil_sublist _
  next =>
    rw [footprint_cons, footprint_nil, append_nil, PriceLevel.footprint, PriceLevel.footprint, orders]
    exact (((sublist_cons_self _ _).append_left position.before).flatMap _).cons_cons _

theorem Cancelled.valid {next : MatchingEngine} (cancelled : Cancelled engine position next) (valid : Valid engine)
    (at' : position.At engine) : Valid next := by
  have side := (valid.side position.side).stocked _ at'.entry_mem
  refine replaced_valid valid at' cancelled.own cancelled.other ?_ ?_ ?_ (remaining_footprint at'.orders) ?_ cancelled.fresh
  · rw [remaining]
    split
    · exact nil_sublist _
    · exact Sublist.refl _
  · intro entry member
    rw [remaining] at member
    split at member
    next => cases member
    next stocked =>
      obtain rfl := mem_singleton.mp member
      refine ⟨stocked, fun node inside => side.2 node ?_⟩
      rw [at'.orders]
      exact ((sublist_cons_self _ _).append_left position.before).subset inside
  · rw [remaining_references, at'.orders]
    exact ((sublist_cons_self _ _).append_left position.before).map _
  · have links := valid.links position.side
    have unique := links.unique
    have index := links.index
    simp only [at'.levels, at'.orders, references_append, references_cons, map_append, map_cons, append_assoc,
      cons_append] at unique index
    simp only [cancelled.index, index, Position.around, references_append, remaining_references, map_append, append_assoc]
    rw [← append_assoc (references position.front)] at unique
    rw [← append_assoc (references position.front), ← append_assoc (references position.front)]
    exact FiniteMap.erase_toFinmap_middle unique

/-- The level at the position with the order's quantity replaced. -/
def requantified (position : Position) (quantity : Quantity) : PriceLevel := { position.level with
  orders := position.before ++ { position.node with order.quantity := quantity } :: position.after
  quantity := ((position.level.quantity.toUInt64 - position.node.order.quantity).toUInt32.toUInt64 + quantity).toUInt32 }

structure Requantified (engine : MatchingEngine) (position : Position) (quantity : Quantity) (next : MatchingEngine) : Prop where
  own : next.levels position.side = position.around [⟨position.node.order.price, requantified position quantity⟩]
  other : next.levels position.side.opposite = engine.levels position.side.opposite
  index : next.orderByIDMap = engine.orderByIDMap
  trades : next.trades = engine.trades
  fresh : next.fresh = engine.fresh

theorem requantify (valid : Valid engine) (at' : position.At engine) (quantity : Quantity) :
    Requantified engine position quantity
      ((engine.modifyLevel position.block.priceLevel fun level => { level with
        quantity := ((level.quantity.toUInt64 - position.node.order.quantity).toUInt32.toUInt64 + quantity).toUInt32 }).modifyOrder
          position.block.order fun original => { original with quantity }) := by
  have alone := at'.level_alone valid
  have apart := at'.apart valid Node.pointer pointers_sublist
  have nodes : PriceLevelMap.nodes (position.others engine) =
      PriceLevelMap.nodes (position.front ++ position.back) ++ PriceLevelMap.nodes (engine.levels position.side.opposite) := by
    rw [Position.others, PriceLevelMap.nodes, flatMap_append]
    rfl
  rw [nodes] at apart
  refine ⟨?_, ?_, rfl, rfl, rfl⟩
  · rw [modifyOrder_levels, modifyLevel_levels, at'.levels, Position.around, append_assoc, singleton_append,
      Position.block, Position.modify_middle _ fun entry member => alone entry (mem_append_left _ member)]
    refine Position.modifyOrder_middle _ at'.orders ?_
    intro other member
    have wider := mem_append_left (PriceLevelMap.nodes (engine.levels position.side.opposite)) member
    rw [append_assoc, append_assoc] at wider
    exact apart other wider
  · rw [modifyOrder_levels, modifyLevel_levels, Position.block,
      Position.modify_absent _ fun entry member => alone entry (mem_append_right _ member)]
    refine Position.modifyOrder_absent _ ?_
    intro other member
    exact apart other (mem_append_right _ (mem_append_right _ (mem_append_right _ member)))

theorem Requantified.valid {next : MatchingEngine} {quantity : Quantity}
    (amended : Requantified engine position quantity next) (valid : Valid engine) (at' : position.At engine) : Valid next := by
  have side := (valid.side position.side).stocked _ at'.entry_mem
  have refs : (requantified position quantity).orders.map (reference position.level.address) =
      position.level.orders.map (reference position.level.address) := by
    rw [requantified, at'.orders, map_append, map_append, map_cons, map_cons]
    rfl
  have prints : PriceLevel.footprint (requantified position quantity) = PriceLevel.footprint position.level := by
    rw [PriceLevel.footprint, PriceLevel.footprint, requantified, at'.orders, flatMap_append, flatMap_append,
      flatMap_cons, flatMap_cons]
  refine replaced_valid valid at' amended.own amended.other (Sublist.refl _) ?_ ?_ ?_ ?_ amended.fresh
  · intro entry member
    obtain rfl := mem_singleton.mp member
    refine ⟨by simp [requantified], ?_⟩
    intro node inside
    rcases mem_append.mp inside with inside | inside
    · exact side.2 node (at'.orders ▸ mem_append_left _ inside)
    · rcases mem_cons.mp inside with rfl | inside
      · exact side.2 position.node at'.node_mem
      · exact side.2 node (at'.orders ▸ mem_append_right _ (mem_cons_of_mem _ inside))
  · rw [references_cons, references_nil, append_nil]
    exact refs ▸ Sublist.refl _
  · rw [footprint_cons, footprint_nil, append_nil, prints]
  · have index := (valid.links position.side).index
    rw [at'.levels, references_append, references_append, references_cons] at index
    rw [amended.index, index, Position.around, references_append, references_append, references_append,
      references_cons, references_nil, append_nil, ← refs, ← append_assoc (references position.front)]
    rfl

/-- The level a new order goes to, found or created, with the levels around it. -/
structure Opened (engine : MatchingEngine) (side : OrderSide) (price : Price) (opened : MatchingEngine × Address)
    (front : PriceLevelMap) (level : PriceLevel) (back : PriceLevelMap) : Prop where
  own : opened.1.levels side = front ++ ⟨price, level⟩ :: back
  other : opened.1.levels side.opposite = engine.levels side.opposite
  address : opened.2 = level.address
  trades : opened.1.trades = engine.trades
  index : opened.1.orderByIDMap = engine.orderByIDMap
  source : engine.levels side = front ++ ⟨price, level⟩ :: back ∨
    engine.levels side = front ++ back ∧ level.orders = [] ∧ level.quantity = 0
  placed : ∀ node ∈ level.orders, node.order.side = side ∧ node.order.price = price
  sorted : SortedMap.Sorted (better side) (opened.1.levels side)
  links : Linked opened.1.orderByIDMap (opened.1.levels side ++ opened.1.levels side.opposite) opened.1.fresh

/-- An empty level at an unused address adds nothing but its address. -/
private theorem created_linked {index : OrderIdMap} {front back rest : PriceLevelMap} {fresh : Address}
    (links : Linked index (front ++ back ++ rest) fresh) (price : Price) :
    Linked index (front ++ ⟨price, { address := fresh }⟩ :: back ++ rest) (fresh + 1) := by
  have unused : fresh ∉ footprint (front ++ back ++ rest) := by
    intro used
    exact absurd (links.bounded _ used) (Nat.lt_irrefl _)
  have grown : footprint (front ++ ⟨price, { address := fresh }⟩ :: back ++ rest) ~ fresh :: footprint (front ++ back ++ rest) := by
    simp only [footprint_append, footprint_cons, append_assoc]
    exact perm_middle
  have same : references (front ++ ⟨price, { address := fresh }⟩ :: back ++ rest) = references (front ++ back ++ rest) := by
    simp only [references_append, references_cons, map_nil, nil_append]
  refine ⟨?_, ?_, ?_, ?_⟩
  · exact same ▸ links.unique
  · exact same ▸ links.index
  · exact grown.nodup_iff.mpr (nodup_cons.mpr ⟨unused, links.addresses⟩)
  · intro address member
    rcases mem_cons.mp (grown.mem_iff.mp member) with rfl | member
    · exact Nat.lt_succ_self _
    · exact Nat.lt_succ_of_lt (links.bounded address member)

private theorem getOrderPriceList_opens (valid : Valid engine) (side : OrderSide) (price : Price) :
    ∃ front level back, Opened engine side price (engine.getOrderPriceList side price) front level back := by
  have held := valid.side side
  have links := valid.links side
  rw [MatchingEngine.getOrderPriceList]
  cases found : (engine.levels side).dlookup price with
  | some level =>
    have member : ⟨price, level⟩ ∈ engine.levels side := of_mem_dlookup found
    obtain ⟨front, back, levels⟩ := append_of_mem member
    exact ⟨front, level, back, levels, rfl, rfl, rfl, rfl, .inl levels, (held.stocked _ member).2, held.sorted, links⟩
  | none =>
    obtain ⟨front, back, whole, inserted, -, -⟩ := SortedMap.insert_split (better side)
      ({ address := engine.fresh } : PriceLevel) (dlookup_eq_none.mp found)
    let created : MatchingEngine := { engine.setLevels (SortedMap.insert (better side) price { address := engine.fresh }
      (engine.levels side)) side with fresh := engine.fresh + 1 }
    have own : created.levels side = front ++ ⟨price, { address := engine.fresh }⟩ :: back := by
      rw [withFresh_levels, setLevels_levels, inserted]
    have other : created.levels side.opposite = engine.levels side.opposite := by
      rw [withFresh_levels, setLevels_opposite]
    have index : created.orderByIDMap = engine.orderByIDMap := setLevels_index _ _ _
    have linked : Linked created.orderByIDMap (created.levels side ++ created.levels side.opposite) created.fresh := by
      rw [whole] at links
      rw [own, other, index]
      exact created_linked links price
    exact ⟨front, { address := engine.fresh }, back, own, other, rfl, setLevels_trades _ _ _, index,
      .inr ⟨whole, rfl, rfl⟩, by simp, own ▸ inserted ▸ held.sorted.insert _ price _, linked⟩

/-- The node an order is stored in. -/
def nodeOf (engine : MatchingEngine) (order : Order) : Node := ⟨engine.fresh + 1, engine.fresh, order⟩

/-- A level with an order appended. -/
def appended (level : PriceLevel) (node : Node) : PriceLevel := { level with
  quantity := (level.quantity.toUInt64 + node.order.quantity).toUInt32, orders := level.orders ++ [node] }

theorem insertOrder_levels (engine : MatchingEngine) (order : Order) (side : OrderSide) :
    (engine.insertOrder order).levels side =
      PriceLevelMap.modify ((engine.getOrderPriceList order.side order.price).1.levels side)
        (engine.getOrderPriceList order.side order.price).2
        (appended · (nodeOf (engine.getOrderPriceList order.side order.price).1 order)) := by
  cases side <;> rfl

theorem insertOrder_index (engine : MatchingEngine) (order : Order) : (engine.insertOrder order).orderByIDMap =
    (engine.getOrderPriceList order.side order.price).1.orderByIDMap.insert order.orderId
      (reference (engine.getOrderPriceList order.side order.price).2
        (nodeOf (engine.getOrderPriceList order.side order.price).1 order)).2 := rfl

/-- A new order rests at the back of its price level. -/
structure Inserted (engine : MatchingEngine) (order : Order) (position : Position) (next : MatchingEngine) : Prop where
  held : position.node.order = order
  at' : position.At next
  last : position.after = []
  other : next.levels order.side.opposite = engine.levels order.side.opposite
  trades : next.trades = engine.trades
  source : ∃ quantity : UInt32, position.level.quantity = (quantity.toUInt64 + order.quantity).toUInt32 ∧
    (engine.levels order.side = position.around [⟨order.price, { position.level with orders := position.before, quantity }⟩] ∨
      engine.levels order.side = position.around [] ∧ position.before = [] ∧ quantity = 0)

section Opened

variable {order : Order} {front back : PriceLevelMap} {level : PriceLevel} {opened : MatchingEngine × Address}

theorem Opened.alone (found : Opened engine order.side order.price opened front level back) :
    ∀ entry ∈ front ++ (back ++ engine.levels order.side.opposite), entry.2.address ≠ level.address := by
  have distinct := found.links.addresses.sublist (addresses_sublist _)
  rw [found.own, found.other, append_assoc, cons_append] at distinct
  intro entry member same
  exact (nodup_cons.mp ((perm_middle.map _).nodup_iff.mp distinct)).1 (mem_map.mpr ⟨entry, member, same⟩)

/-- Appending a node at two unused addresses, with its index entry, keeps the
pointers in order. -/
private theorem Opened.append_linked (found : Opened engine order.side order.price opened front level back)
    (absent : order.orderId ∉ engine.orderByIDMap) :
    Linked (opened.1.orderByIDMap.insert order.orderId (reference opened.2 (nodeOf opened.1 order)).2)
      (front ++ ⟨order.price, appended level (nodeOf opened.1 order)⟩ :: back ++ engine.levels order.side.opposite)
      (opened.1.fresh + 2) := by
  have links := found.links
  rw [found.own, found.other] at links
  have index := links.index
  have shape : references (front ++ ⟨order.price, level⟩ :: back ++ engine.levels order.side.opposite) =
      (references front ++ level.orders.map (reference level.address)) ++
        (references back ++ references (engine.levels order.side.opposite)) := by
    simp only [references_append, references_cons, append_assoc]
  have grown : references (front ++ ⟨order.price, appended level (nodeOf opened.1 order)⟩ :: back ++
      engine.levels order.side.opposite) =
      (references front ++ level.orders.map (reference level.address)) ++
        reference level.address (nodeOf opened.1 order) :: (references back ++ references (engine.levels order.side.opposite)) := by
    simp only [references_append, references_cons, appended, map_append, map_cons, map_nil, append_assoc, cons_append,
      nil_append]
  have prints : footprint (front ++ ⟨order.price, appended level (nodeOf opened.1 order)⟩ :: back ++
      engine.levels order.side.opposite) ~ opened.1.fresh :: (opened.1.fresh + 1) ::
        footprint (front ++ ⟨order.price, level⟩ :: back ++ engine.levels order.side.opposite) := by
    refine perm_iff_count.mpr fun address => ?_
    simp only [footprint_append, footprint_cons, PriceLevel.footprint, appended, nodeOf, flatMap_append, flatMap_cons,
      flatMap_nil, count_append, count_cons, count_nil]
    omega
  have unique : ((references front ++ level.orders.map (reference level.address)) ++
      reference level.address (nodeOf opened.1 order) ::
        (references back ++ references (engine.levels order.side.opposite))).NodupKeys := by
    rw [nodupKeys_middle, nodupKeys_cons, ← shape]
    refine ⟨?_, links.unique⟩
    rw [← FiniteMap.mem_toFinmap, ← index, found.index]
    exact absent
  refine ⟨grown ▸ unique, ?_, ?_, ?_⟩
  · rw [index, shape, found.address, grown]
    exact FiniteMap.insert_toFinmap_middle unique
  · have unused : ∀ address, opened.1.fresh ≤ address →
        address ∉ footprint (front ++ ⟨order.price, level⟩ :: back ++ engine.levels order.side.opposite) :=
      fun address above member => absurd (links.bounded address member) (Nat.not_lt.mpr above)
    refine prints.nodup_iff.mpr (nodup_cons.mpr ⟨?_, nodup_cons.mpr ⟨unused _ (Nat.le_succ _), links.addresses⟩⟩)
    rw [mem_cons, not_or]
    exact ⟨(Nat.succ_ne_self _).symm, unused _ (Nat.le_refl _)⟩
  · intro address member
    rcases mem_cons.mp (prints.mem_iff.mp member) with rfl | member
    · exact Nat.lt_add_of_pos_right Nat.two_pos
    · rcases mem_cons.mp member with rfl | member
      · exact Nat.lt_succ_self _
      · exact Nat.lt_add_right 2 (links.bounded address member)

private theorem Opened.append_stocked (found : Opened engine order.side order.price opened front level back) (valid : Valid engine) :
    ∀ entry ∈ front ++ ⟨order.price, appended level (nodeOf opened.1 order)⟩ :: back, entry.2.orders ≠ [] ∧
      ∀ node ∈ entry.2.orders, node.order.side = order.side ∧ node.order.price = entry.1 := by
  have stocked := (valid.side order.side).stocked
  have kept : ∀ entry ∈ front ++ back, entry ∈ engine.levels order.side := by
    intro entry member
    rcases found.source with source | ⟨source, -, -⟩
    · rw [source]
      exact ((sublist_cons_self _ _).append_left front).subset member
    · exact source ▸ member
  intro entry member
  rcases mem_cons.mp (perm_middle.mem_iff.mp member) with rfl | member
  · refine ⟨by simp [appended], ?_⟩
    intro resting inside
    rcases mem_append.mp inside with inside | inside
    · exact found.placed resting inside
    · obtain rfl := mem_singleton.mp inside
      exact ⟨rfl, rfl⟩
  · exact stocked entry (kept entry member)

end Opened

theorem insertOrder_inserts (valid : Valid engine) {order : Order} (absent : order.orderId ∉ engine.orderByIDMap) :
    ∃ position, Inserted engine order position (engine.insertOrder order) ∧ Valid (engine.insertOrder order) := by
  obtain ⟨front, level, back, found⟩ := getOrderPriceList_opens valid order.side order.price
  let node := nodeOf (engine.getOrderPriceList order.side order.price).1 order
  have alone := found.alone
  have own : (engine.insertOrder order).levels order.side = front ++ ⟨order.price, appended level node⟩ :: back := by
    rw [insertOrder_levels, found.own, found.address]
    refine Position.modify_middle (appended · node) fun entry member => alone entry ?_
    exact append_assoc front back _ ▸ mem_append_left _ member
  have other : (engine.insertOrder order).levels order.side.opposite = engine.levels order.side.opposite := by
    rw [insertOrder_levels, found.other, found.address]
    exact Position.modify_absent (appended · node) fun entry member =>
      alone entry (mem_append_right _ (mem_append_right _ member))
  refine ⟨⟨order.side, front, appended level node, back, level.orders, node, []⟩,
    ⟨rfl, ⟨own, rfl, rfl⟩, rfl, other, found.trades, level.quantity, rfl, ?_⟩, ?_⟩
  · rcases found.source with source | ⟨source, empty, zero⟩
    · exact .inl (by rw [source, Position.around, append_assoc, singleton_append]; rfl)
    · exact .inr ⟨by rw [source, Position.around, append_nil], empty, zero⟩
  · refine Valid.of_sides order.side ⟨?_, ?_⟩ ?_ ?_
    · have sorted := found.sorted
      rw [found.own] at sorted
      rw [own]
      refine sorted.of_keys _ ?_
      simp only [map_append, map_cons]
      exact Sublist.refl _
    · rw [own]
      exact found.append_stocked valid
    · exact other ▸ valid.side order.side.opposite
    · rw [own, other, insertOrder_index]
      exact found.append_linked absent

end FinanceTech.Proofs.MatchingSteps
