import FinanceTech.Library.FiniteMap
import FinanceTech.MatchingEngine

/-! What the matching loops do to the side they run over, whatever quantities
rest there: they drop a prefix of it together with its index entries, and they
stop in front of a crossing level only when nothing of the order is left. -/

namespace FinanceTech.Proofs.MatchingLoops
open List Library Matching Matching.Pointer Matching.Pointer.MatchState

/-- A node up to the quantity left in its order. -/
def identity (node : Node) : Node := { node with order.quantity := 0 }

/-- The index entry of a node that rests on the level at this address. -/
def reference (level : Address) (node : Node) : (_ : OrderID) × ReferencesBlock :=
  ⟨node.order.orderId, ⟨node.pointer, node.iter, level⟩⟩

def references (levels : PriceLevelMap) : List ((_ : OrderID) × ReferencesBlock) :=
  levels.flatMap fun entry => entry.2.orders.map (reference entry.2.address)

/-- The addresses of a level and of everything it owns. -/
def PriceLevel.footprint (level : PriceLevel) : List Address :=
  level.address :: level.orders.flatMap fun node => [node.pointer, node.iter]

def footprint (levels : PriceLevelMap) : List Address :=
  levels.flatMap fun entry => PriceLevel.footprint entry.2

@[simp] theorem references_nil : references [] = [] := rfl

@[simp] theorem references_cons (price : Price) (level : PriceLevel) (rest : PriceLevelMap) :
    references (⟨price, level⟩ :: rest) = level.orders.map (reference level.address) ++ references rest := rfl

@[simp] theorem references_append (first second : PriceLevelMap) :
    references (first ++ second) = references first ++ references second := by simp [references]

@[simp] theorem footprint_nil : footprint [] = [] := rfl

@[simp] theorem footprint_cons (price : Price) (level : PriceLevel) (rest : PriceLevelMap) :
    footprint (⟨price, level⟩ :: rest) = PriceLevel.footprint level ++ footprint rest := rfl

@[simp] theorem footprint_append (first second : PriceLevelMap) :
    footprint (first ++ second) = footprint first ++ footprint second := by simp [footprint]

@[simp] theorem nodes_nil : PriceLevelMap.nodes [] = [] := rfl

@[simp] theorem nodes_cons (price : Price) (level : PriceLevel) (rest : PriceLevelMap) :
    PriceLevelMap.nodes (⟨price, level⟩ :: rest) = level.orders ++ PriceLevelMap.nodes rest := rfl

@[simp] theorem nodes_append (first second : PriceLevelMap) :
    PriceLevelMap.nodes (first ++ second) = PriceLevelMap.nodes first ++ PriceLevelMap.nodes second := by
  simp [PriceLevelMap.nodes]

private theorem reference_identity (level : Address) (node : Node) : reference level (identity node) = reference level node := rfl

theorem addTrade_order (state : MatchState) (matched : Order) : (state.addTrade matched).order = state.order := rfl

theorem addTrade_index (state : MatchState) (matched : Order) :
    (state.addTrade matched).orderByIDMap = state.orderByIDMap := rfl

theorem matchOrderList_suffix (state : MatchState) (nodes : List Node) :
    (matchOrderList state nodes).2.map identity <:+ nodes.map identity := by
  induction nodes generalizing state with
  | nil => exact suffix_refl _
  | cons node rest ih =>
    rw [matchOrderList]
    split
    · exact (ih _).trans (suffix_cons _ _)
    · exact suffix_refl _

theorem matchOrderList_order (state : MatchState) (nodes : List Node) :
    ∃ quantity, (matchOrderList state nodes).1.order = { state.order with quantity } := by
  induction nodes generalizing state with
  | nil => exact ⟨state.order.quantity, rfl⟩
  | cons node rest ih =>
    rw [matchOrderList]
    split
    · obtain ⟨quantity, same⟩ := ih { state.addTrade node.order with
        order.quantity := (state.addTrade node.order).order.quantity - node.order.quantity
        orderByIDMap := (state.addTrade node.order).orderByIDMap.erase node.order.orderId }
      exact ⟨quantity, same⟩
    · exact ⟨0, rfl⟩

/-- The loop leaves a level only when it is empty or the order is used up. -/
theorem matchOrderList_left {state : MatchState} {nodes : List Node} (left : (matchOrderList state nodes).2 ≠ []) :
    (matchOrderList state nodes).1.order.quantity = 0 := by
  induction nodes generalizing state with
  | nil => exact absurd rfl left
  | cons node rest ih =>
    rw [matchOrderList] at left ⊢
    split at left
    next filled =>
      rw [if_pos filled]
      exact ih left
    next partly => rw [if_neg partly]

private theorem matchOrderList_sublist {α : Type} (f : Node → List α) (same : ∀ node, f (identity node) = f node)
    (state : MatchState) (nodes : List Node) :
    ((matchOrderList state nodes).2.flatMap f) <+ (nodes.flatMap f) := by
  have factor : ∀ nodes : List Node, nodes.flatMap f = (nodes.map identity).flatMap f := by
    intro nodes
    simp only [flatMap_map, same]
  rw [factor, factor nodes]
  exact (matchOrderList_suffix state nodes).sublist.flatMap f

private theorem matchOrderList_references (level : Address) (state : MatchState) (nodes : List Node) :
    (matchOrderList state nodes).2.map (reference level) <+ nodes.map (reference level) := by
  have factor : ∀ nodes : List Node, nodes.map (reference level) = (nodes.map identity).map (reference level) := by
    intro nodes
    simp only [map_map, Function.comp_def, reference_identity]
  rw [factor, factor nodes]
  exact (matchOrderList_suffix state nodes).sublist.map _

private theorem matchOrderList_index (level : Address) (others : List ((_ : OrderID) × ReferencesBlock))
    {state : MatchState} {nodes : List Node}
    (unique : (nodes.map (reference level) ++ others).NodupKeys)
    (index : state.orderByIDMap = (nodes.map (reference level) ++ others).toFinmap) :
    (matchOrderList state nodes).1.orderByIDMap =
      ((matchOrderList state nodes).2.map (reference level) ++ others).toFinmap := by
  induction nodes generalizing state with
  | nil => exact index
  | cons node rest ih =>
    rw [matchOrderList]
    split
    · refine ih (nodupKeys_of_nodupKeys_cons unique) ?_
      rw [addTrade_index, index]
      exact FiniteMap.erase_toFinmap_cons unique
    · exact index

theorem matchLevels_done {state : MatchState} (done : state.order.quantity = 0) (levels : PriceLevelMap) :
    matchLevels state levels = (state, levels) := by
  cases levels with
  | nil => rfl
  | cons entry rest =>
    have stops : ¬ (0 < state.order.quantity ∧ crosses state.order.side entry.1 state.order.price = true) := by
      rw [done]
      exact fun open' => UInt64.lt_irrefl 0 open'.1
    rw [matchLevels, if_neg stops]

/-- One turn of the loop, with the rest of the side untouched when the level
keeps an order. -/
theorem matchLevels_cons (state : MatchState) (price : Price) (level : PriceLevel) (rest : PriceLevelMap) :
    matchLevels state (⟨price, level⟩ :: rest) =
      if 0 < state.order.quantity ∧ crosses state.order.side price state.order.price then
        if (matchOrderList state level.orders).2 = [] then matchLevels (matchOrderList state level.orders).1 rest
        else ((matchOrderList state level.orders).1,
          ⟨price, { level with orders := (matchOrderList state level.orders).2 }⟩ :: rest)
      else (state, ⟨price, level⟩ :: rest) := by
  rw [matchLevels]
  split
  · by_cases empty : (matchOrderList state level.orders).2 = []
    · simp [empty]
    · simp [empty, matchLevels_done (matchOrderList_left empty)]
  · rfl

theorem matchLevels_order (state : MatchState) (levels : PriceLevelMap) :
    ∃ quantity, (matchLevels state levels).1.order = { state.order with quantity } := by
  induction levels generalizing state with
  | nil => exact ⟨state.order.quantity, rfl⟩
  | cons entry rest ih =>
    obtain ⟨quantity, same⟩ := matchOrderList_order state entry.2.orders
    rw [matchLevels_cons]
    split
    · split
      · obtain ⟨final, done⟩ := ih (matchOrderList state entry.2.orders).1
        exact ⟨final, by rw [done, same]⟩
      · exact ⟨quantity, same⟩
    · exact ⟨state.order.quantity, rfl⟩

theorem matchLevels_keys (state : MatchState) (levels : PriceLevelMap) :
    (matchLevels state levels).2.map Sigma.fst <+ levels.map Sigma.fst := by
  induction levels generalizing state with
  | nil => exact Sublist.refl _
  | cons entry rest ih =>
    rw [matchLevels_cons]
    split
    · split
      · exact (ih _).cons _
      · exact Sublist.refl _
    · exact Sublist.refl _

theorem matchLevels_footprint (state : MatchState) (levels : PriceLevelMap) :
    footprint (matchLevels state levels).2 <+ footprint levels := by
  induction levels generalizing state with
  | nil => exact Sublist.refl _
  | cons entry rest ih =>
    rw [matchLevels_cons]
    split
    · split
      · exact (ih _).trans (sublist_append_right _ _)
      · exact ((matchOrderList_sublist _ (fun _ => rfl) state entry.2.orders).cons_cons _).append (Sublist.refl _)
    · exact Sublist.refl _

theorem matchLevels_references (state : MatchState) (levels : PriceLevelMap) :
    references (matchLevels state levels).2 <+ references levels := by
  induction levels generalizing state with
  | nil => exact Sublist.refl _
  | cons entry rest ih =>
    rw [matchLevels_cons]
    split
    · split
      · exact (ih _).trans (sublist_append_right _ _)
      · exact (matchOrderList_references _ state entry.2.orders).append (Sublist.refl _)
    · exact Sublist.refl _

theorem matchLevels_index (others : List ((_ : OrderID) × ReferencesBlock)) {state : MatchState} {levels : PriceLevelMap}
    (unique : (references levels ++ others).NodupKeys)
    (index : state.orderByIDMap = (references levels ++ others).toFinmap) :
    (matchLevels state levels).1.orderByIDMap = (references (matchLevels state levels).2 ++ others).toFinmap := by
  induction levels generalizing state with
  | nil => exact index
  | cons entry rest ih =>
    rw [references_cons, append_assoc] at unique index
    have matched := matchOrderList_index _ _ unique index
    rw [matchLevels_cons]
    split
    · split
      next empty =>
        rw [empty] at matched
        exact ih (unique.sublist (sublist_append_right _ _)) matched
      next =>
        rw [references_cons, append_assoc]
        exact matched
    · rw [references_cons, append_assoc]
      exact index

/-- Every property of levels and their nodes that does not depend on the
quantities survives matching; a level that stays keeps an order. -/
theorem matchLevels_keeps (property : Price → Node → Prop)
    (same : ∀ price node, property price (identity node) ↔ property price node)
    (state : MatchState) {levels : PriceLevelMap}
    (holds : ∀ entry ∈ levels, entry.2.orders ≠ [] ∧ ∀ node ∈ entry.2.orders, property entry.1 node) :
    ∀ entry ∈ (matchLevels state levels).2, entry.2.orders ≠ [] ∧ ∀ node ∈ entry.2.orders, property entry.1 node := by
  induction levels generalizing state with
  | nil => exact holds
  | cons head rest ih =>
    obtain ⟨first, others⟩ := forall_mem_cons.mp holds
    rw [matchLevels_cons]
    split
    · split
      next => exact ih _ others
      next stocked =>
        refine forall_mem_cons.mpr ⟨⟨stocked, ?_⟩, others⟩
        intro node member
        obtain ⟨original, inside, equal⟩ :=
          mem_map.mp ((matchOrderList_suffix state head.2.orders).subset (mem_map_of_mem member))
        rw [← same, ← equal, same]
        exact first.2 original inside
    · exact holds

theorem crosses_of_better {side : OrderSide} {first second price : Price} (earlier : better side.opposite first second)
    (crossing : crosses side second price = true) : crosses side first price = true := by
  cases side with
  | buy =>
    simp only [better, OrderSide.opposite, crosses, decide_eq_true_eq] at earlier crossing ⊢
    exact UInt64.le_trans (UInt64.le_of_lt earlier) crossing
  | sell =>
    simp only [better, OrderSide.opposite, crosses, decide_eq_true_eq] at earlier crossing ⊢
    exact UInt64.le_trans crossing (UInt64.le_of_lt earlier)

/-- A remainder means that no level that is left crosses. -/
theorem matchLevels_uncrossed {state : MatchState} {levels : PriceLevelMap}
    (sorted : SortedMap.Sorted (better state.order.side.opposite) levels)
    (remains : (matchLevels state levels).1.order.quantity ≠ 0) :
    ∀ entry ∈ (matchLevels state levels).2, crosses state.order.side entry.1 state.order.price = false := by
  induction levels generalizing state with
  | nil => simp [matchLevels]
  | cons head rest ih =>
    rw [matchLevels_cons] at remains ⊢
    obtain ⟨quantity, same⟩ := matchOrderList_order state head.2.orders
    split at remains
    next runs =>
      rw [if_pos runs]
      split at remains
      next empty =>
        rw [if_pos empty]
        have keeps := @ih (matchOrderList state head.2.orders).1 (by rw [same]; exact sorted.tail) remains
        rwa [same] at keeps
      next stocked => exact absurd (matchOrderList_left stocked) remains
    next stops =>
      rw [if_neg stops]
      have positive : 0 < state.order.quantity := UInt64.pos_iff_ne_zero.mpr remains
      have outside : crosses state.order.side head.1 state.order.price = false := by
        simpa [positive] using stops
      intro entry member
      rcases mem_cons.mp member with rfl | member
      · exact outside
      · by_contra crossing
        have inside := crosses_of_better (sorted.head_before _ member) (Bool.of_not_eq_false crossing)
        rw [inside] at outside
        cases outside

end FinanceTech.Proofs.MatchingLoops
