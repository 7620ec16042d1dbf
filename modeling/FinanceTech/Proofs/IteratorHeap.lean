import FinanceTech.MatchingIterator
import FinanceTech.Proofs.MatchingSteps

/-! The heap of the iterator engine beside the levels of the pointer engine. The
pointer engine owns its orders inside its levels; the iterator engine keeps the
same orders and lists on a heap, under the same addresses, and its matching loops
read there what the pointer engine reads in place. -/

namespace FinanceTech.Proofs.IteratorHeap
open List Library Matching MatchingLoops MatchingPointers MatchingSteps

/-- The list node that stands for a node of the pointer engine. -/
def listed (node : Pointer.Node) : Simple.PriceOrder := ⟨node.iter, node.pointer⟩

def pointers (levels : Pointer.PriceLevelMap) : Iterator.PriceLevelMap :=
  SortedMap.mapValues Pointer.PriceLevel.address levels

@[simp] theorem pointers_append (first second : Pointer.PriceLevelMap) :
    pointers (first ++ second) = pointers first ++ pointers second := map_append

def renamed (block : Pointer.ReferencesBlock) : Iterator.ReferencesBlock :=
  ⟨block.order, block.iterPriceLevelOrder, block.priceLevel⟩

/-- The heap holds the lists and the orders of these levels. -/
structure Heap (orders : Iterator.Orders) (lists : Iterator.Lists) (levels : Pointer.PriceLevelMap) : Prop where
  list : ∀ entry ∈ levels, lists.dlookup entry.2.address = some (entry.2.orders.map listed)
  order : ∀ node ∈ Pointer.PriceLevelMap.nodes levels, orders.dlookup node.pointer = some node.order

theorem Heap.subset {orders : Iterator.Orders} {lists : Iterator.Lists} {levels others : Pointer.PriceLevelMap}
    (heap : Heap orders lists levels) (sub : others ⊆ levels) : Heap orders lists others where
  list entry member := heap.list entry (sub member)
  order node member := by
    obtain ⟨entry, present, inside⟩ := mem_nodes.mp member
    exact heap.order node (mem_nodes.mpr ⟨entry, sub present, inside⟩)

private theorem mem_modify {levels : Pointer.PriceLevelMap} {address : Address} {change : Pointer.PriceLevel → Pointer.PriceLevel}
    {entry : (_ : Price) × Pointer.PriceLevel} (member : entry ∈ Pointer.PriceLevelMap.modify levels address change) :
    ∃ old ∈ levels, (old.2.address = address ∧ entry = ⟨old.1, change old.2⟩) ∨ (old.2.address ≠ address ∧ entry = old) := by
  obtain ⟨old, present, same⟩ := mem_map.mp member
  refine ⟨old, present, ?_⟩
  split at same
  next written => exact .inl ⟨written, same.symm⟩
  next kept => exact .inr ⟨kept, same.symm⟩

theorem pointers_modify {change : Pointer.PriceLevel → Pointer.PriceLevel} (same : ∀ level, (change level).address = level.address)
    (levels : Pointer.PriceLevelMap) (address : Address) :
    pointers (Pointer.PriceLevelMap.modify levels address change) = pointers levels := by
  simp only [pointers, SortedMap.mapValues, Pointer.PriceLevelMap.modify, map_map]
  apply map_congr_left
  intro entry _
  simp only [Function.comp_apply]
  split
  · rw [same]
  · rfl

theorem pointers_modifyOrder (levels : Pointer.PriceLevelMap) (address : Address) (change : Order → Order) :
    pointers (Pointer.PriceLevelMap.modifyOrder levels address change) = pointers levels := by
  simp only [pointers, SortedMap.mapValues, Pointer.PriceLevelMap.modifyOrder, map_map, Function.comp_def]

section Heap

variable {orders : Iterator.Orders} {lists : Iterator.Lists} {levels : Pointer.PriceLevelMap}

theorem Heap.append (heap : Heap orders lists levels) (address : Address) {node : Pointer.Node} (unused : node.pointer ∉ orders.keys) :
    Heap (orders ++ [⟨node.pointer, node.order⟩]) (Cells.modify lists address fun list => list ++ [listed node])
      (Pointer.PriceLevelMap.modify levels address (appended · node)) where
  list entry member := by
    obtain ⟨old, present, ⟨written, rfl⟩ | ⟨kept, rfl⟩⟩ := mem_modify member
    · simp only [appended, Cells.dlookup_modify, if_pos written, heap.list old present, Option.map_some, map_append,
        map_cons, map_nil]
    · rw [Cells.dlookup_modify_ne kept]
      exact heap.list entry present
  order other member := by
    obtain ⟨entry, inside, held⟩ := mem_nodes.mp member
    obtain ⟨old, present, ⟨written, rfl⟩ | ⟨kept, rfl⟩⟩ := mem_modify inside
    · rcases mem_append.mp held with held | held
      · exact Cells.dlookup_append_some (heap.order other (mem_nodes.mpr ⟨old, present, held⟩)) _
      · obtain rfl := mem_singleton.mp held
        exact Cells.dlookup_append_self unused other.order
    · exact Cells.dlookup_append_some (heap.order other (mem_nodes.mpr ⟨entry, present, held⟩)) _

/-- The heap does not hold the quantities of the levels. -/
theorem Heap.modify (heap : Heap orders lists levels) (address : Address) {change : Pointer.PriceLevel → Pointer.PriceLevel}
    (same : ∀ level, (change level).address = level.address ∧ (change level).orders = level.orders) :
    Heap orders lists (Pointer.PriceLevelMap.modify levels address change) where
  list entry member := by
    obtain ⟨old, present, ⟨-, rfl⟩ | ⟨-, rfl⟩⟩ := mem_modify member
    · rw [(same old.2).1, (same old.2).2]
      exact heap.list old present
    · exact heap.list entry present
  order node member := by
    obtain ⟨entry, inside, held⟩ := mem_nodes.mp member
    obtain ⟨old, present, ⟨-, rfl⟩ | ⟨-, rfl⟩⟩ := mem_modify inside
    · rw [(same old.2).2] at held
      exact heap.order node (mem_nodes.mpr ⟨old, present, held⟩)
    · exact heap.order node (mem_nodes.mpr ⟨entry, present, held⟩)

/-- Writing one order writes its cell. -/
theorem Heap.modifyOrder (heap : Heap orders lists levels) (address : Address) (change : Order → Order) :
    Heap (Cells.modify orders address change) lists (Pointer.PriceLevelMap.modifyOrder levels address change) where
  list entry member := by
    obtain ⟨old, present, rfl⟩ := mem_map.mp member
    rw [heap.list old present, map_map]
    apply congrArg some
    apply map_congr_left
    intro node _
    simp only [Function.comp_apply, listed]
    split <;> rfl
  order node member := by
    obtain ⟨entry, inside, held⟩ := mem_nodes.mp member
    obtain ⟨old, present, rfl⟩ := mem_map.mp inside
    obtain ⟨original, there, rfl⟩ := mem_map.mp held
    have read := heap.order original (mem_nodes.mpr ⟨old, present, there⟩)
    rw [Cells.dlookup_modify]
    split
    next written => rw [if_pos written, read, Option.map_some]
    next kept => rw [if_neg kept, read]

end Heap

def Indexes (first : Pointer.OrderIdMap) (second : Iterator.OrderIdMap) : Prop :=
  ∀ id, second.lookup id = (first.lookup id).map renamed

section Indexes

variable {first : Pointer.OrderIdMap} {second : Iterator.OrderIdMap}

theorem Indexes.erase (indexes : Indexes first second) (id : OrderID) : Indexes (first.erase id) (second.erase id) := by
  intro other
  by_cases same : other = id
  · rw [same, Finmap.lookup_erase, Finmap.lookup_erase]
    rfl
  · rw [Finmap.lookup_erase_ne same, Finmap.lookup_erase_ne same]
    exact indexes other

theorem Indexes.insert (indexes : Indexes first second) (id : OrderID) (block : Pointer.ReferencesBlock) :
    Indexes (first.insert id block) (second.insert id (renamed block)) := by
  intro other
  by_cases same : other = id
  · rw [same, Finmap.lookup_insert, Finmap.lookup_insert]
    rfl
  · rw [Finmap.lookup_insert_of_ne _ same, Finmap.lookup_insert_of_ne _ same]
    exact indexes other

theorem Indexes.mem (indexes : Indexes first second) (id : OrderID) : id ∈ second ↔ id ∈ first := by
  rw [← Finmap.lookup_isSome, ← Finmap.lookup_isSome, indexes id, Option.isSome_map]

theorem Indexes.card (indexes : Indexes first second) : second.keys.card = first.keys.card := by
  apply congrArg Finset.card
  apply Finset.ext
  intro id
  rw [Finmap.mem_keys, Finmap.mem_keys, indexes.mem]

end Indexes

structure Same (first : Pointer.MatchState) (second : Iterator.MatchState) : Prop where
  order : second.order = first.order
  index : Indexes first.orderByIDMap second.orderByIDMap
  trades : second.trades = first.trades

theorem Same.addTrade {first : Pointer.MatchState} {second : Iterator.MatchState} (same : Same first second) (matched : Order) :
    Same (first.addTrade matched) (second.addTrade matched) := by
  refine ⟨same.order, same.index, ?_⟩
  rw [Iterator.MatchState.addTrade, Pointer.MatchState.addTrade, same.order, same.trades]

/-- What the loop over a list has done to the heap while other nodes lived
there. -/
structure Followed (second next : Iterator.MatchState) (nodes : List Pointer.Node) : Prop where
  lists : next.lists = second.lists
  keys : next.orders.keys = second.orders.keys
  reads : ∀ node ∈ nodes, next.orders.dlookup node.pointer = some node.order

private theorem matchOrderList_simulates {first : Pointer.MatchState} {second : Iterator.MatchState} {nodes others : List Pointer.Node}
    (same : Same first second) (distinct : ((nodes ++ others).map Pointer.Node.pointer).Nodup)
    (reads : ∀ node ∈ nodes ++ others, second.orders.dlookup node.pointer = some node.order) :
    ∃ next, second.matchOrderList (nodes.map listed) = some (next, (first.matchOrderList nodes).2.map listed) ∧
      Same (first.matchOrderList nodes).1 next ∧ Followed second next ((first.matchOrderList nodes).2 ++ others) := by
  induction nodes generalizing first second with
  | nil => exact ⟨second, rfl, same, rfl, rfl, reads⟩
  | cons node rest ih =>
    obtain ⟨here, elsewhere⟩ := forall_mem_cons.mp reads
    obtain ⟨alone, apart⟩ := nodup_cons.mp distinct
    have traded := same.addTrade node.order
    have untouched : ∀ change : Order → Order, ∀ other ∈ rest ++ others,
        (Cells.modify second.orders node.pointer change).dlookup other.pointer = some other.order := by
      intro change other member
      have different : other.pointer ≠ node.pointer := fun equal => alone (equal ▸ mem_map_of_mem member)
      rw [Cells.dlookup_modify_ne different]
      exact elsewhere other member
    have kept : ∀ change : Order → Order, (Cells.modify second.orders node.pointer change).keys = second.orders.keys :=
      Cells.modify_keys second.orders node.pointer
    rw [map_cons, Iterator.MatchState.matchOrderList, Pointer.MatchState.matchOrderList, listed, here]
    simp only [Option.bind_eq_bind, Option.bind_some]
    by_cases fits : node.order.quantity ≤ (first.addTrade node.order).order.quantity
    · rw [if_pos fits, if_pos (traded.order ▸ fits)]
      let spent : Order → Order := fun order => { order with quantity := 0 }
      let taken : Iterator.MatchState := { second.addTrade node.order with
        order.quantity := (second.addTrade node.order).order.quantity - node.order.quantity
        orders := Cells.modify second.orders node.pointer spent
        orderByIDMap := second.orderByIDMap.erase node.order.orderId }
      let filled : Pointer.MatchState := { first.addTrade node.order with
        order.quantity := (first.addTrade node.order).order.quantity - node.order.quantity
        orderByIDMap := first.orderByIDMap.erase node.order.orderId }
      have after : Same filled taken := by
        refine ⟨?_, same.index.erase node.order.orderId, traded.trades⟩
        simp only [filled, taken, traded.order]
      obtain ⟨next, ran, ends, followed⟩ := ih after apart (untouched spent)
      exact ⟨next, ran, ends, followed.lists, followed.keys.trans (kept spent), followed.reads⟩
    · rw [if_neg fits, if_neg (traded.order ▸ fits)]
      let lowered : Order → Order := fun order => { order with
        quantity := order.quantity - (second.addTrade node.order).order.quantity }
      refine ⟨_, rfl, ⟨?_, same.index, traded.trades⟩, rfl, kept lowered, ?_⟩
      · simp only [traded.order]
      · intro other member
        rcases mem_cons.mp member with rfl | member
        · have written : (Cells.modify second.orders node.pointer lowered).dlookup node.pointer = some (lowered node.order) := by
            rw [Cells.dlookup_modify, if_pos rfl, here]
            rfl
          simp only [lowered, traded.order] at written
          simp only [traded.order]
          exact written
        · exact untouched lowered other member

theorem matchLevels_done {state : Iterator.MatchState} (done : state.order.quantity = 0) (levels : Iterator.PriceLevelMap) :
    state.matchLevels levels = some (state, levels) := by
  cases levels with
  | nil => rfl
  | cons entry rest =>
    have stops : ¬ (0 < state.order.quantity ∧ Pointer.crosses state.order.side entry.1 state.order.price = true) := by
      rw [done]
      exact fun runs => UInt64.lt_irrefl 0 runs.1
    rw [Iterator.MatchState.matchLevels, if_neg stops]

/-- What the loop over the levels has done to the heap. -/
structure Walked (second next : Iterator.MatchState) (levels : Pointer.PriceLevelMap) : Prop where
  lists : next.lists.keys = second.lists.keys
  orders : next.orders.keys = second.orders.keys
  heap : Heap next.orders next.lists levels

/-- Writing the list of one level leaves the others alone. -/
private theorem list_written {lists : Iterator.Lists} {price : Price} {level : Pointer.PriceLevel} {rest : Pointer.PriceLevelMap}
    (held : ∀ entry ∈ (⟨price, level⟩ :: rest : Pointer.PriceLevelMap), lists.dlookup entry.2.address = some (entry.2.orders.map listed))
    (apart : ∀ other ∈ rest, other.2.address ≠ level.address) (list : Simple.PriceOrderList) :
    (Cells.modify lists level.address fun _ => list).dlookup level.address = some list ∧
      ∀ other ∈ rest, (Cells.modify lists level.address fun _ => list).dlookup other.2.address = some (other.2.orders.map listed) := by
  constructor
  · rw [Cells.dlookup_modify, if_pos rfl, held _ mem_cons_self]
    rfl
  · intro other member
    rw [Cells.dlookup_modify_ne (apart other member)]
    exact held other (mem_cons_of_mem _ member)

theorem matchLevels_simulates {first : Pointer.MatchState} {second : Iterator.MatchState} {levels others : Pointer.PriceLevelMap}
    (same : Same first second) (distinct : (footprint (levels ++ others)).Nodup)
    (heap : Heap second.orders second.lists (levels ++ others)) :
    ∃ next, second.matchLevels (pointers levels) = some (next, pointers (first.matchLevels levels).2) ∧
      Same (first.matchLevels levels).1 next ∧ Walked second next ((first.matchLevels levels).2 ++ others) := by
  induction levels generalizing first second with
  | nil => exact ⟨second, rfl, same, rfl, rfl, heap⟩
  | cons entry rest ih =>
    obtain ⟨price, level⟩ := entry
    have addresses := distinct.sublist (addresses_sublist _)
    have nodes := distinct.sublist (pointers_sublist _)
    have apart : ∀ other ∈ rest ++ others, other.2.address ≠ level.address := by
      intro other member equal
      exact (nodup_cons.mp addresses).1 (mem_map.mpr ⟨other, member, equal⟩)
    rw [cons_append, nodes_cons] at nodes
    obtain ⟨next, ran, after, followed⟩ := matchOrderList_simulates same nodes heap.order
    have ends : pointers (⟨price, level⟩ :: rest) = ⟨price, level.address⟩ :: pointers rest := rfl
    rw [ends, Iterator.MatchState.matchLevels, matchLevels_cons]
    by_cases runs : 0 < first.order.quantity ∧ Pointer.crosses first.order.side price first.order.price = true
    · let stored : Iterator.MatchState := { next with
        lists := Cells.modify next.lists level.address fun _ => (first.matchOrderList level.orders).2.map listed }
      have keys : stored.lists.keys = second.lists.keys := by rw [Cells.modify_keys, followed.lists]
      have held : ∀ entry ∈ (⟨price, level⟩ :: (rest ++ others) : Pointer.PriceLevelMap),
          next.lists.dlookup entry.2.address = some (entry.2.orders.map listed) := by
        rw [followed.lists]
        exact heap.list
      obtain ⟨written, outside⟩ := list_written held apart ((first.matchOrderList level.orders).2.map listed)
      have related : Same (first.matchOrderList level.orders).1 stored := ⟨after.order, after.index, after.trades⟩
      rw [if_pos runs, if_pos (same.order ▸ runs), heap.list _ mem_cons_self]
      simp only [Option.bind_eq_bind, Option.bind_some, ran, List.isEmpty_iff, map_eq_nil_iff]
      by_cases empty : (first.matchOrderList level.orders).2 = []
      · rw [if_pos empty, if_pos empty]
        have left : Heap stored.orders stored.lists (rest ++ others) :=
          ⟨outside, fun node member => followed.reads node (mem_append_right _ member)⟩
        obtain ⟨final, reached, ends, walked⟩ := ih related (distinct.sublist (sublist_append_right _ _)) left
        exact ⟨final, reached, ends, walked.lists.trans keys, walked.orders.trans followed.keys, walked.heap⟩
      · have used : stored.order.quantity = 0 := by
          rw [related.order]
          exact matchOrderList_left empty
        have stops : stored.matchLevels (pointers rest) = some (stored, pointers rest) := matchLevels_done used _
        rw [if_neg empty, if_neg empty]
        refine ⟨stored, ?_, related, keys, followed.keys, ?_, followed.reads⟩
        · exact (congrArg (Option.bind · _) stops).trans rfl
        · intro other member
          rcases mem_cons.mp member with rfl | member
          · exact written
          · exact outside other member
    · rw [if_neg runs, if_neg (same.order ▸ runs)]
      exact ⟨second, rfl, same, rfl, rfl, heap⟩

end FinanceTech.Proofs.IteratorHeap
