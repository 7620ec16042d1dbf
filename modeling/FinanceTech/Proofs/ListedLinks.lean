import FinanceTech.Library.Cells
import FinanceTech.MatchingListed
import FinanceTech.Proofs.PriceTimeFill

/-! The iterators of a book of lists. Every node of a price level refers to a
live order of the master list that belongs on that level, and the index leads
back to the node. Each thing an engine does to one order keeps this. -/

namespace FinanceTech.Proofs.ListedLinks
open List Library Matching Matching.Listed PriceTime PriceTimeFill
open Simple (PriceOrder PriceOrderList PriceLevelMap before)

/-- A node with the level it is linked in. -/
structure Placed where
  side : OrderSide
  price : Price
  node : PriceOrder

namespace Placed

def block (place : Placed) : ReferencesBlock := ⟨place.node.orderIter, place.node.iter⟩

def read (orders : SortedMap.Entries Address Order) (place : Placed) : Order :=
  (orders.dlookup place.node.orderIter).getD {}

end Placed

def placed (side : OrderSide) (levels : PriceLevelMap) : List Placed :=
  levels.flatMap fun entry => entry.2.map (Placed.mk side entry.1)

@[simp] theorem placed_cons (side : OrderSide) (entry : (_ : Price) × PriceOrderList) (rest : PriceLevelMap) :
    placed side (entry :: rest) = entry.2.map (Placed.mk side entry.1) ++ placed side rest := rfl

@[simp] theorem placed_append (side : OrderSide) (first second : PriceLevelMap) :
    placed side (first ++ second) = placed side first ++ placed side second := by simp [placed]

abbrev Orders := SortedMap.Entries Address Order

abbrev Index := Finmap fun _ : OrderID => ReferencesBlock

structure Holds (orders : Orders) (index : Index) (place : Placed) (order : Order) : Prop where
  found : orders.dlookup place.node.orderIter = some order
  side : order.side = place.side
  price : order.price = place.price
  indexed : index.lookup order.orderId = some place.block

structure Linked (orders : Orders) (index : Index) (fresh : Address) (places : List Placed) : Prop where
  held : ∀ place ∈ places, ∃ order, Holds orders index place order
  indexed : ∀ id block, index.lookup id = some block →
    ∃ place ∈ places, place.block = block ∧ ∃ order, Holds orders index place order ∧ order.orderId = id
  distinct : (places.map fun place => place.node.iter).Nodup
  bounded : ∀ place ∈ places, place.node.iter < fresh
  unique : orders.NodupKeys
  allocated : ∀ handle ∈ orders.keys, handle < fresh

section Linked

variable {orders : Orders} {index : Index} {fresh : Address} {place : Placed} {places rest : List Placed} {order : Order}

theorem Linked.perm {others : List Placed} (linked : Linked orders index fresh places) (perm : places ~ others) :
    Linked orders index fresh others where
  held place member := linked.held place (perm.mem_iff.mpr member)
  indexed id block found := by
    obtain ⟨place, member, leads⟩ := linked.indexed id block found
    exact ⟨place, perm.mem_iff.mp member, leads⟩
  distinct := (perm.map _).nodup_iff.mp linked.distinct
  bounded place member := linked.bounded place (perm.mem_iff.mpr member)
  unique := linked.unique
  allocated := linked.allocated

theorem Holds.read_eq (holds : Holds orders index place order) : place.read orders = order := by
  rw [Placed.read, holds.found, Option.getD_some]

/-- Two nodes never refer to the same order, and two orders on the levels never
have the same id. -/
theorem Linked.apart (linked : Linked orders index fresh (place :: rest)) (holds : Holds orders index place order)
    {other : Placed} (member : other ∈ rest) :
    other.node.orderIter ≠ place.node.orderIter ∧ ∀ resting, Holds orders index other resting → resting.orderId ≠ order.orderId := by
  have iters : other.node.iter ≠ place.node.iter := by
    intro same
    exact (nodup_cons.mp linked.distinct).1 (mem_map.mpr ⟨other, member, same⟩)
  have ids : ∀ resting, Holds orders index other resting → resting.orderId ≠ order.orderId := by
    intro resting there same
    have blocks := there.indexed
    rw [same, holds.indexed] at blocks
    cases iters (congrArg ReferencesBlock.priceOrderIter (Option.some.inj blocks)).symm
  refine ⟨?_, ids⟩
  intro same
  obtain ⟨resting, there⟩ := linked.held other (mem_cons_of_mem _ member)
  have found := there.found
  rw [same, holds.found] at found
  cases found
  exact ids order there rfl

/-- An order leaves its level and the index, whatever becomes of it in the
master list. -/
theorem Linked.release (linked : Linked orders index fresh (place :: rest)) (holds : Holds orders index place order)
    {next : Orders} (frame : ∀ handle, handle ≠ place.node.orderIter → next.dlookup handle = orders.dlookup handle)
    (sub : next.keys <+ orders.keys) : Linked next (index.erase order.orderId) fresh rest := by
  have carry : ∀ other ∈ rest, ∀ resting, Holds orders index other resting →
      Holds next (index.erase order.orderId) other resting := by
    intro other member resting there
    obtain ⟨iter, id⟩ := linked.apart holds member
    refine ⟨(frame _ iter).trans there.found, there.side, there.price, ?_⟩
    exact (Finmap.lookup_erase_ne (id resting there)).trans there.indexed
  refine ⟨?_, ?_, (nodup_cons.mp linked.distinct).2, ?_, Nodup.sublist sub linked.unique, ?_⟩
  · intro other member
    obtain ⟨resting, there⟩ := linked.held other (mem_cons_of_mem _ member)
    exact ⟨resting, carry other member resting there⟩
  · intro id block found
    have different : id ≠ order.orderId := by
      rintro rfl
      rw [Finmap.lookup_erase] at found
      cases found
    rw [Finmap.lookup_erase_ne different] at found
    obtain ⟨other, member, same, resting, there, named⟩ := linked.indexed id block found
    rcases mem_cons.mp member with rfl | member
    · have equal : resting = order := Option.some.inj (there.found.symm.trans holds.found)
      cases different (named.symm.trans (congrArg Order.orderId equal))
    · exact ⟨other, member, same, resting, carry other member resting there, named⟩
  · exact fun other member => linked.bounded other (mem_cons_of_mem _ member)
  · exact fun handle member => linked.allocated handle (sub.subset member)

/-- Writing through an iterator keeps the links when the order keeps its side,
price and id. -/
theorem Linked.modify (linked : Linked orders index fresh places) (handle : Address) {change : Order → Order}
    (same : ∀ order, (change order).side = order.side ∧ (change order).price = order.price ∧
      (change order).orderId = order.orderId) : Linked (Cells.modify orders handle change) index fresh places := by
  have carry : ∀ place order, Holds orders index place order → ∃ changed,
      Holds (Cells.modify orders handle change) index place changed ∧ changed.orderId = order.orderId := by
    intro place order holds
    obtain ⟨side, price, id⟩ := same order
    by_cases written : place.node.orderIter = handle
    · refine ⟨change order, ⟨?_, side.trans holds.side, price.trans holds.price, id ▸ holds.indexed⟩, id⟩
      rw [Cells.dlookup_modify, if_pos written, holds.found, Option.map_some]
    · exact ⟨order, ⟨(Cells.dlookup_modify_ne written _ _).trans holds.found, holds.side, holds.price, holds.indexed⟩, rfl⟩
  refine ⟨?_, ?_, linked.distinct, linked.bounded, ?_, ?_⟩
  · intro place member
    obtain ⟨order, holds⟩ := linked.held place member
    obtain ⟨changed, after, -⟩ := carry place order holds
    exact ⟨changed, after⟩
  · intro id block found
    obtain ⟨place, member, leads, order, holds, named⟩ := linked.indexed id block found
    obtain ⟨changed, after, kept⟩ := carry place order holds
    exact ⟨place, member, leads, changed, after, kept.trans named⟩
  · rw [NodupKeys, Cells.modify_keys]
    exact linked.unique
  · rw [Cells.modify_keys]
    exact linked.allocated

theorem Linked.allocate (linked : Linked orders index fresh places) (absent : order.orderId ∉ index) :
    Linked (orders ++ [⟨fresh, order⟩]) (index.insert order.orderId ⟨fresh, fresh + 1⟩) (fresh + 2)
      (⟨order.side, order.price, ⟨fresh + 1, fresh⟩⟩ :: places) := by
  have unused : fresh ∉ orders.keys := fun member => Nat.lt_irrefl _ (linked.allocated _ member)
  have own : Holds (orders ++ [⟨fresh, order⟩]) (index.insert order.orderId ⟨fresh, fresh + 1⟩)
      ⟨order.side, order.price, ⟨fresh + 1, fresh⟩⟩ order :=
    ⟨Cells.dlookup_append_self unused order, rfl, rfl, Finmap.lookup_insert _⟩
  have carry : ∀ place resting, Holds orders index place resting →
      Holds (orders ++ [⟨fresh, order⟩]) (index.insert order.orderId ⟨fresh, fresh + 1⟩) place resting := by
    intro place resting there
    have other : resting.orderId ≠ order.orderId := by
      intro same
      exact absent (same ▸ Finmap.mem_of_lookup_eq_some there.indexed)
    exact ⟨Cells.dlookup_append_some there.found _, there.side, there.price,
      (Finmap.lookup_insert_of_ne _ other).trans there.indexed⟩
  refine ⟨?_, ?_, ?_, ?_, ?_, ?_⟩
  · intro place member
    rcases mem_cons.mp member with rfl | member
    · exact ⟨order, own⟩
    · obtain ⟨resting, there⟩ := linked.held place member
      exact ⟨resting, carry place resting there⟩
  · intro id block found
    by_cases same : id = order.orderId
    · cases same
      rw [Finmap.lookup_insert] at found
      exact ⟨_, mem_cons_self, Option.some.inj found, order, own, rfl⟩
    · rw [Finmap.lookup_insert_of_ne _ same] at found
      obtain ⟨place, member, leads, resting, there, named⟩ := linked.indexed id block found
      exact ⟨place, mem_cons_of_mem _ member, leads, resting, carry place resting there, named⟩
  · rw [map_cons, nodup_cons]
    refine ⟨?_, linked.distinct⟩
    intro member
    obtain ⟨place, inside, same⟩ := mem_map.mp member
    have bound := linked.bounded place inside
    rw [same] at bound
    exact Nat.not_lt_of_le (Nat.le_succ fresh) bound
  · intro place member
    rcases mem_cons.mp member with rfl | member
    · exact Nat.lt_succ_self _
    · exact Nat.lt_add_right 2 (linked.bounded place member)
  · rw [NodupKeys, keys_append]
    refine Nodup.append linked.unique (by simp) ?_
    intro handle member new
    cases mem_singleton.mp new
    exact unused member
  · intro handle member
    rw [keys_append, mem_append] at member
    rcases member with member | member
    · exact Nat.lt_add_right 2 (linked.allocated handle member)
    · cases mem_singleton.mp member
      exact Nat.lt_add_of_pos_right (by decide)

end Linked
end FinanceTech.Proofs.ListedLinks
