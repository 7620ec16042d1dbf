import FinanceTech.Proofs.MatchingLoops

/-! Following a pointer in a well-formed engine. Distinct addresses make every
read find the one object that lives there and every write change only it. -/

namespace FinanceTech.Proofs.MatchingPointers
open List Library Matching Matching.Pointer MatchingLoops

structure SideValid (side : OrderSide) (levels : PriceLevelMap) : Prop where
  sorted : SortedMap.Sorted (better side) levels
  stocked : ∀ entry ∈ levels, entry.2.orders ≠ [] ∧
    ∀ node ∈ entry.2.orders, node.order.side = side ∧ node.order.price = entry.1

theorem SideValid.tail {side : OrderSide} {entry : (_ : Price) × PriceLevel} {rest : PriceLevelMap} (valid : SideValid side (entry :: rest)) :
    SideValid side rest where
  sorted := List.Pairwise.tail valid.sorted
  stocked other member := valid.stocked other (mem_cons_of_mem entry member)

/-- The index is the map of the resting orders' references, and no two objects
share an address. -/
structure Linked (index : OrderIdMap) (levels : PriceLevelMap) (fresh : Address) : Prop where
  unique : (references levels).NodupKeys
  index : index = (references levels).toFinmap
  addresses : (footprint levels).Nodup
  bounded : ∀ address ∈ footprint levels, address < fresh

structure Valid (engine : MatchingEngine) : Prop where
  bids : SideValid .buy engine.bidPriceLevelMap
  asks : SideValid .sell engine.askPriceLevelMap
  linked : Linked engine.orderByIDMap (engine.bidPriceLevelMap ++ engine.askPriceLevelMap) engine.fresh

private theorem references_perm {first second : PriceLevelMap} (perm : first ~ second) :
    references first ~ references second := perm.flatMap_right _

private theorem footprint_perm {first second : PriceLevelMap} (perm : first ~ second) :
    footprint first ~ footprint second := perm.flatMap_right _

theorem Linked.perm {index : OrderIdMap} {first second : PriceLevelMap} {fresh : Address}
    (linked : Linked index first fresh) (perm : first ~ second) : Linked index second fresh where
  unique := (perm_nodupKeys (references_perm perm)).mp linked.unique
  index := linked.index.trans (FiniteMap.toFinmap_perm linked.unique (references_perm perm))
  addresses := (footprint_perm perm).nodup_iff.mp linked.addresses
  bounded address member := linked.bounded address ((footprint_perm perm).mem_iff.mpr member)

theorem sides_perm (engine : MatchingEngine) (side : OrderSide) :
    engine.bidPriceLevelMap ++ engine.askPriceLevelMap ~ engine.levels side ++ engine.levels side.opposite := by
  cases side with
  | buy => exact Perm.refl _
  | sell => exact perm_append_comm

theorem Valid.side {engine : MatchingEngine} (valid : Valid engine) (side : OrderSide) :
    SideValid side (engine.levels side) := by
  cases side with
  | buy => exact valid.bids
  | sell => exact valid.asks

theorem Valid.links {engine : MatchingEngine} (valid : Valid engine) (side : OrderSide) :
    Linked engine.orderByIDMap (engine.levels side ++ engine.levels side.opposite) engine.fresh :=
  valid.linked.perm (sides_perm engine side)

theorem Valid.of_sides {engine : MatchingEngine} (side : OrderSide) (own : SideValid side (engine.levels side))
    (other : SideValid side.opposite (engine.levels side.opposite))
    (linked : Linked engine.orderByIDMap (engine.levels side ++ engine.levels side.opposite) engine.fresh) :
    Valid engine := by
  have whole := linked.perm (sides_perm engine side).symm
  cases side with
  | buy => exact ⟨own, other, whole⟩
  | sell => exact ⟨other, own, whole⟩

theorem find?_unique {α : Type} {p : α → Bool} {items : List α} {item : α} (member : item ∈ items) (holds : p item = true)
    (only : ∀ other ∈ items, p other = true → other = item) : items.find? p = some item := by
  have found : (items.find? p).isSome := find?_isSome.mpr ⟨item, member, holds⟩
  obtain ⟨other, same⟩ := Option.isSome_iff_exists.mp found
  rw [same, only other (mem_of_find?_eq_some same) (find?_some same)]

theorem addresses_sublist (levels : PriceLevelMap) : (levels.map fun entry => entry.2.address) <+ footprint levels := by
  induction levels with
  | nil => exact Sublist.refl _
  | cons entry rest ih =>
    exact (ih.trans (sublist_append_right _ _)).cons_cons entry.2.address

theorem pointers_sublist (levels : PriceLevelMap) :
    (PriceLevelMap.nodes levels).map Node.pointer <+ footprint levels := by
  have within : ∀ nodes : List Node, nodes.map Node.pointer <+ nodes.flatMap fun node => [node.pointer, node.iter] := by
    intro nodes
    induction nodes with
    | nil => exact Sublist.refl _
    | cons node rest ih => exact (ih.cons node.iter).cons_cons node.pointer
  induction levels with
  | nil => exact Sublist.refl _
  | cons entry rest ih =>
    rw [PriceLevelMap.nodes, flatMap_cons, map_append]
    exact ((within entry.2.orders).cons entry.2.address).append ih

theorem iters_sublist (levels : PriceLevelMap) : (PriceLevelMap.nodes levels).map Node.iter <+ footprint levels := by
  have within : ∀ nodes : List Node, nodes.map Node.iter <+ nodes.flatMap fun node => [node.pointer, node.iter] := by
    intro nodes
    induction nodes with
    | nil => exact Sublist.refl _
    | cons node rest ih => exact (ih.cons_cons node.iter).cons node.pointer
  induction levels with
  | nil => exact Sublist.refl _
  | cons entry rest ih =>
    rw [PriceLevelMap.nodes, flatMap_cons, map_append]
    exact ((within entry.2.orders).cons entry.2.address).append ih

theorem mem_nodes {levels : PriceLevelMap} {node : Node} :
    node ∈ PriceLevelMap.nodes levels ↔ ∃ entry ∈ levels, node ∈ entry.2.orders := mem_flatMap

/-- Where an order rests: its level with the levels around it, and its node
with the nodes around it. -/
structure Position where
  side : OrderSide
  front : PriceLevelMap
  level : PriceLevel
  back : PriceLevelMap
  before : List Node
  node : Node
  after : List Node

namespace Position

structure At (position : Position) (engine : MatchingEngine) : Prop where
  levels : engine.levels position.side = position.front ++ ⟨position.node.order.price, position.level⟩ :: position.back
  orders : position.level.orders = position.before ++ position.node :: position.after
  side : position.node.order.side = position.side

def block (position : Position) : ReferencesBlock :=
  ⟨position.node.pointer, position.node.iter, position.level.address⟩

/-- The side with the level replaced by these entries. -/
def around (position : Position) (entries : PriceLevelMap) : PriceLevelMap :=
  position.front ++ entries ++ position.back

/-- The levels that do not hold the position. -/
def others (position : Position) (engine : MatchingEngine) : PriceLevelMap :=
  position.front ++ position.back ++ engine.levels position.side.opposite

variable {position : Position} {engine : MatchingEngine}

theorem At.entry_mem (at' : position.At engine) :
    ⟨position.node.order.price, position.level⟩ ∈ engine.levels position.side := by
  rw [at'.levels]
  exact mem_append_right _ mem_cons_self

theorem At.node_mem (at' : position.At engine) : position.node ∈ position.level.orders := by
  rw [at'.orders]
  exact mem_append_right _ mem_cons_self

theorem At.perm (at' : position.At engine) : engine.bidPriceLevelMap ++ engine.askPriceLevelMap ~
    ⟨position.node.order.price, position.level⟩ :: position.others engine := by
  refine (sides_perm engine position.side).trans ?_
  rw [at'.levels, others, append_assoc, cons_append, append_assoc]
  exact perm_middle

theorem At.linked (at' : position.At engine) (valid : Valid engine) : Linked engine.orderByIDMap
    (⟨position.node.order.price, position.level⟩ :: position.others engine) engine.fresh :=
  valid.linked.perm at'.perm

theorem At.level_alone (at' : position.At engine) (valid : Valid engine) :
    ∀ entry ∈ position.others engine, entry.2.address ≠ position.level.address := by
  have distinct := (at'.linked valid).addresses.sublist (addresses_sublist _)
  intro entry member same
  exact (nodup_cons.mp distinct).1 (mem_map.mpr ⟨entry, member, same⟩)

private theorem At.nodes_perm (at' : position.At engine) :
    PriceLevelMap.nodes (engine.bidPriceLevelMap ++ engine.askPriceLevelMap) ~
      position.before ++ position.node :: (position.after ++ PriceLevelMap.nodes (position.others engine)) := by
  refine (at'.perm.flatMap_right fun entry => entry.2.orders).trans ?_
  rw [flatMap_cons, at'.orders, append_assoc, cons_append]
  exact Perm.refl _

/-- No other resting node has an address of this kind in common with the
position's node. -/
theorem At.apart (at' : position.At engine) (valid : Valid engine) (address : Node → Address)
    (sub : ∀ levels, (PriceLevelMap.nodes levels).map address <+ footprint levels) :
    ∀ node ∈ position.before ++ (position.after ++ PriceLevelMap.nodes (position.others engine)),
      address node ≠ address position.node := by
  have distinct := valid.linked.addresses.sublist (sub _)
  have perm := (at'.nodes_perm.trans perm_middle).map address
  have alone := perm.nodup_iff.mp distinct
  intro node member same
  exact (nodup_cons.mp alone).1 (mem_map.mpr ⟨node, member, same⟩)

theorem At.order? (at' : position.At engine) (valid : Valid engine) :
    engine.order? position.block.order = some position.node.order := by
  have found : (PriceLevelMap.nodes (engine.bidPriceLevelMap ++ engine.askPriceLevelMap)).find?
      (fun node => node.pointer = position.node.pointer) = some position.node := by
    apply find?_unique
    · exact at'.nodes_perm.mem_iff.mpr (mem_append_right _ mem_cons_self)
    · simp
    · intro node member same
      rcases mem_cons.mp ((at'.nodes_perm.trans perm_middle).mem_iff.mp member) with rfl | member
      · rfl
      · exact absurd (by simpa using same) (at'.apart valid Node.pointer pointers_sublist node member)
  rw [MatchingEngine.order?, block, found, Option.map_some]

theorem At.level? (at' : position.At engine) (valid : Valid engine) :
    engine.level? position.block.priceLevel = some position.level := by
  have found : (engine.bidPriceLevelMap ++ engine.askPriceLevelMap).find?
      (fun entry => entry.2.address = position.level.address) = some ⟨position.node.order.price, position.level⟩ := by
    apply find?_unique
    · exact at'.perm.mem_iff.mpr mem_cons_self
    · simp
    · intro entry member same
      rcases mem_cons.mp (at'.perm.mem_iff.mp member) with rfl | member
      · rfl
      · exact absurd (by simpa using same) (at'.level_alone valid entry member)
  rw [MatchingEngine.level?, block, found, Option.map_some]

theorem At.eraseNode (at' : position.At engine) (valid : Valid engine) :
    MatchingEngine.eraseNode position.level.orders position.block.iterPriceLevelOrder =
      some (position.before ++ position.after) := by
  have apart := at'.apart valid Node.iter iters_sublist
  have listed : position.level.orders.any (fun node => node.iter = position.node.iter) = true :=
    any_eq_true.mpr ⟨position.node, at'.node_mem, by simp⟩
  have skips : ∀ node ∈ position.before, ¬ (decide (node.iter = position.node.iter)) = true := by
    intro node member
    simpa using apart node (mem_append_left _ member)
  rw [MatchingEngine.eraseNode, block, if_pos listed, at'.orders, eraseP_append_right _ skips,
    eraseP_cons_of_pos (by simp)]

theorem modify_absent {levels : PriceLevelMap} {address : Address} (change : PriceLevel → PriceLevel)
    (absent : ∀ entry ∈ levels, entry.2.address ≠ address) : PriceLevelMap.modify levels address change = levels := by
  rw [PriceLevelMap.modify]
  refine (map_congr_left fun entry member => ?_).trans (map_id' _)
  exact if_neg (absent entry member)

theorem modify_middle {front back : PriceLevelMap} {price : Price} {level : PriceLevel} (change : PriceLevel → PriceLevel)
    (alone : ∀ entry ∈ front ++ back, entry.2.address ≠ level.address) :
    PriceLevelMap.modify (front ++ ⟨price, level⟩ :: back) level.address change =
      front ++ ⟨price, change level⟩ :: back := by
  have left := modify_absent change fun entry member => alone entry (mem_append_left _ member)
  have right := modify_absent change fun entry member => alone entry (mem_append_right _ member)
  rw [PriceLevelMap.modify] at left right ⊢
  rw [map_append, map_cons, left, right, if_pos rfl]

theorem modifyOrder_absent {levels : PriceLevelMap} {address : Address} (change : Order → Order)
    (absent : ∀ node ∈ PriceLevelMap.nodes levels, node.pointer ≠ address) :
    PriceLevelMap.modifyOrder levels address change = levels := by
  rw [PriceLevelMap.modifyOrder]
  refine (map_congr_left fun entry member => ?_).trans (map_id' _)
  have same : entry.2.orders.map (fun node => if node.pointer = address then { node with order := change node.order } else node) =
      entry.2.orders := by
    refine (map_congr_left fun node inside => ?_).trans (map_id' _)
    exact if_neg (absent node (mem_nodes.mpr ⟨entry, member, inside⟩))
  rw [same]

theorem modifyOrder_middle {front back : PriceLevelMap} {price : Price} {level : PriceLevel} {before after : List Node}
    {node : Node} (change : Order → Order) (orders : level.orders = before ++ node :: after)
    (alone : ∀ other ∈ before ++ (after ++ PriceLevelMap.nodes (front ++ back)), other.pointer ≠ node.pointer) :
    PriceLevelMap.modifyOrder (front ++ ⟨price, level⟩ :: back) node.pointer change =
      front ++ ⟨price, { level with orders := before ++ { node with order := change node.order } :: after }⟩ :: back := by
  have kept : ∀ nodes : List Node, (∀ other ∈ nodes, other.pointer ≠ node.pointer) → nodes.map (fun other =>
      if other.pointer = node.pointer then { other with order := change other.order } else other) = nodes := by
    intro nodes absent
    exact (map_congr_left fun other member => if_neg (absent other member)).trans (map_id' _)
  have outside : ∀ other ∈ PriceLevelMap.nodes (front ++ back), other.pointer ≠ node.pointer :=
    fun other member => alone other (mem_append_right _ (mem_append_right _ member))
  rw [PriceLevelMap.nodes, flatMap_append] at outside
  have left := @modifyOrder_absent front node.pointer change fun other member => outside other (mem_append_left _ member)
  have right := @modifyOrder_absent back node.pointer change fun other member => outside other (mem_append_right _ member)
  have first := kept before fun other member => alone other (mem_append_left _ member)
  have last := kept after fun other member => alone other (mem_append_right _ (mem_append_left _ member))
  rw [PriceLevelMap.modifyOrder] at left right ⊢
  rw [map_append, map_cons, left, right, orders, map_append, map_cons, first, last, if_pos rfl]

end Position

/-- Both sides of an engine, seen from one of them. -/
theorem modifyLevel_levels (engine : MatchingEngine) (address : Address) (change : PriceLevel → PriceLevel) (side : OrderSide) :
    (engine.modifyLevel address change).levels side = PriceLevelMap.modify (engine.levels side) address change := by
  cases side <;> rfl

theorem modifyOrder_levels (engine : MatchingEngine) (address : Address) (change : Order → Order) (side : OrderSide) :
    (engine.modifyOrder address change).levels side = PriceLevelMap.modifyOrder (engine.levels side) address change := by
  cases side <;> rfl

@[simp] theorem setLevels_levels (engine : MatchingEngine) (levels : PriceLevelMap) (side : OrderSide) :
    (engine.setLevels levels side).levels side = levels := by cases side <;> rfl

@[simp] theorem setLevels_opposite (engine : MatchingEngine) (levels : PriceLevelMap) (side : OrderSide) :
    (engine.setLevels levels side).levels side.opposite = engine.levels side.opposite := by cases side <;> rfl

@[simp] theorem setLevels_index (engine : MatchingEngine) (levels : PriceLevelMap) (side : OrderSide) :
    (engine.setLevels levels side).orderByIDMap = engine.orderByIDMap := by cases side <;> rfl

@[simp] theorem setLevels_trades (engine : MatchingEngine) (levels : PriceLevelMap) (side : OrderSide) :
    (engine.setLevels levels side).trades = engine.trades := by cases side <;> rfl

@[simp] theorem setLevels_fresh (engine : MatchingEngine) (levels : PriceLevelMap) (side : OrderSide) :
    (engine.setLevels levels side).fresh = engine.fresh := by cases side <;> rfl

@[simp] theorem opposite_opposite (side : OrderSide) : side.opposite.opposite = side := by cases side <;> rfl

end FinanceTech.Proofs.MatchingPointers
