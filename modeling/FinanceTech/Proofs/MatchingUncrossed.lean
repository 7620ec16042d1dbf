import FinanceTech.Proofs.MatchingRepresentation

/-! The book is never crossed. Only an insertion can put two prices across each
other, and an order is inserted only after the levels it crosses are gone. -/

namespace FinanceTech.Proofs.MatchingUncrossed
open List Library Matching Matching.Pointer MatchingLoops MatchingPointers MatchingSteps MatchingRepresentation

def Uncrossed (engine : MatchingEngine) : Prop :=
  ∀ bid ∈ engine.bidPriceLevelMap, ∀ ask ∈ engine.askPriceLevelMap, bid.1 < ask.1

/-- The same from either side: no level trades with an order at a resting price
of the other side. -/
theorem uncrossed_iff (engine : MatchingEngine) (side : OrderSide) : Uncrossed engine ↔
    ∀ own ∈ engine.levels side, ∀ other ∈ engine.levels side.opposite, crosses side other.1 own.1 = false := by
  cases side with
  | buy =>
    simp only [Uncrossed, crosses, decide_eq_false_iff_not, UInt64.not_le]
    rfl
  | sell =>
    simp only [Uncrossed, crosses, ge_iff_le, decide_eq_false_iff_not, UInt64.not_le]
    exact ⟨fun apart ask member bid other => apart bid other ask member,
      fun apart bid other ask member => apart ask member bid other⟩

theorem uncrossed_of_keys {engine next : MatchingEngine} (side : OrderSide) (uncrossed : Uncrossed engine)
    (own : (next.levels side).map Sigma.fst ⊆ (engine.levels side).map Sigma.fst)
    (other : (next.levels side.opposite).map Sigma.fst ⊆ (engine.levels side.opposite).map Sigma.fst) : Uncrossed next := by
  rw [uncrossed_iff _ side] at uncrossed ⊢
  intro first member second opposite
  obtain ⟨old, present, price⟩ := mem_map.mp (own (mem_map_of_mem member))
  obtain ⟨facing, there, level⟩ := mem_map.mp (other (mem_map_of_mem opposite))
  rw [← price, ← level]
  exact uncrossed old present facing there

theorem around_keys {engine : MatchingEngine} {position : Position} (at' : position.At engine) {entries : PriceLevelMap}
    (keys : entries.map Sigma.fst ⊆ [position.node.order.price]) :
    (position.around entries).map Sigma.fst ⊆ (engine.levels position.side).map Sigma.fst := by
  rw [at'.levels, Position.around, map_append, map_append, map_append, map_cons, append_assoc]
  intro price member
  rcases mem_append.mp member with member | member
  · exact mem_append_left _ member
  · refine mem_append_right _ ?_
    rcases mem_append.mp member with member | member
    · exact mem_singleton.mp (keys member) ▸ mem_cons_self
    · exact mem_cons_of_mem _ member

private theorem matchOrder_uncrossed {engine : MatchingEngine} (uncrossed : Uncrossed engine) (order : Order) :
    Uncrossed (engine.matchOrder order).2 := by
  refine uncrossed_of_keys order.side uncrossed ?_ ?_
  · rw [matchOrder_own]
    exact Subset.refl _
  · rw [matchOrder_opposite]
    exact (matchLevels_keys _ _).subset

private theorem inserted_keys {engine next : MatchingEngine} {order : Order} {position : Position}
    (inserted : Inserted engine order position next) :
    ∀ entry ∈ next.levels order.side, entry.1 = order.price ∨ entry ∈ engine.levels order.side := by
  have side : position.side = order.side := by rw [← inserted.at'.side, inserted.held]
  obtain ⟨quantity, -, source⟩ := inserted.source
  intro entry member
  rw [← side, inserted.at'.levels] at member
  rcases mem_append.mp member with member | member
  · right
    rcases source with source | ⟨source, -, -⟩ <;> rw [source, Position.around, append_assoc] <;>
      exact mem_append_left _ member
  · rcases mem_cons.mp member with rfl | member
    · exact .inl (congrArg Order.price inserted.held)
    · right
      rcases source with source | ⟨source, -, -⟩ <;> rw [source, Position.around, append_assoc] <;>
        exact mem_append_right _ (mem_append_right _ member)

theorem handleOrderNew_uncrossed {engine : MatchingEngine} (valid : Valid engine) (uncrossed : Uncrossed engine)
    (order : Order) : Uncrossed (engine.handleOrderNew order) := by
  have matched := matchOrder_uncrossed uncrossed order
  rcases handleOrderNew_cases valid order with ⟨-, same⟩ | ⟨remains, -, position, inserted, -⟩
  · exact same ▸ matched
  · obtain ⟨quantity, rest⟩ := matchOrder_order engine order
    have emptied : ∀ entry ∈ (engine.matchOrder order).2.levels order.side.opposite,
        crosses order.side entry.1 order.price = false := by
      rw [matchOrder_opposite]
      exact matchLevels_uncrossed (valid.side order.side.opposite).sorted remains
    rw [rest] at inserted
    have keys := inserted_keys inserted
    rw [uncrossed_iff _ order.side] at matched ⊢
    intro own member other opposite
    have before : other ∈ (engine.matchOrder order).2.levels order.side.opposite := by
      have same := inserted.other
      exact same ▸ opposite
    rcases keys own member with price | old
    · exact price ▸ emptied other before
    · exact matched own old other before

theorem cancelled_uncrossed {engine cancelled : MatchingEngine} {position : Position} (uncrossed : Uncrossed engine)
    (at' : position.At engine) (gone : Cancelled engine position cancelled) : Uncrossed cancelled := by
  refine uncrossed_of_keys position.side uncrossed ?_ ?_
  · rw [gone.own]
    refine around_keys at' ?_
    rw [remaining]
    split
    · exact nil_subset _
    · exact Subset.refl _
  · rw [gone.other]
    exact Subset.refl _

private theorem processOrder_uncrossed {engine : MatchingEngine} (holds : Valid engine ∧ Uncrossed engine) (order : Order) :
    ∃ next, engine.processOrder order = some next ∧ Valid next ∧ Uncrossed next := by
  obtain ⟨valid, uncrossed⟩ := holds
  obtain ⟨next, ran, processed⟩ := processOrder_processes valid order
  refine ⟨next, ran, processed.valid valid, ?_⟩
  cases processed with
  | ignored => exact uncrossed
  | submitted => exact handleOrderNew_uncrossed valid uncrossed order
  | cancelled cancel at' id side gone => exact cancelled_uncrossed uncrossed at' gone
  | moved amend at' id side price gone =>
    exact handleOrderNew_uncrossed (gone.valid valid at') (cancelled_uncrossed uncrossed at' gone) order
  | @requantified position _ amend at' id side price changed =>
    refine uncrossed_of_keys position.side uncrossed ?_ ?_
    · rw [changed.own]
      exact around_keys at' (Subset.refl _)
    · rw [changed.other]
      exact Subset.refl _

private theorem processOrders_uncrossed (orders : List Order) :
    ∃ engine, MatchingEngine.processOrders {} orders = some engine ∧ Valid engine ∧ Uncrossed engine :=
  Runs.foldlM_succeeds (fun _ order holds => processOrder_uncrossed holds order) orders
    ⟨initial, by simp [Uncrossed]⟩

/-- The price at the head of a side. -/
def bestPrice (levels : PriceLevelMap) : Option Price := levels.head?.map Sigma.fst

/-- After any orders, the highest bid is below the lowest ask when both sides
hold an order. -/
theorem best_bid_below_best_ask (orders : List Order) :
    ∃ engine, MatchingEngine.processOrders {} orders = some engine ∧
      (engine.bidPriceLevelMap = [] ∨ engine.askPriceLevelMap = [] ∨
        ∃ bid ask, bestPrice engine.bidPriceLevelMap = some bid ∧ (∀ entry ∈ engine.bidPriceLevelMap, entry.1 ≤ bid) ∧
          bestPrice engine.askPriceLevelMap = some ask ∧ (∀ entry ∈ engine.askPriceLevelMap, ask ≤ entry.1) ∧ bid < ask) := by
  obtain ⟨engine, reached, valid, uncrossed⟩ := processOrders_uncrossed orders
  refine ⟨engine, reached, ?_⟩
  have bids := valid.bids.sorted
  have asks := valid.asks.sorted
  rcases same : engine.bidPriceLevelMap with _ | ⟨bid, lower⟩
  · exact .inl rfl
  · rcases other : engine.askPriceLevelMap with _ | ⟨ask, higher⟩
    · exact .inr (.inl rfl)
    · rw [same] at bids
      rw [other] at asks
      refine .inr (.inr ⟨bid.1, ask.1, rfl, ?_, rfl, ?_, ?_⟩)
      · intro entry member
        rcases mem_cons.mp member with rfl | member
        · exact UInt64.le_refl _
        · exact UInt64.le_of_lt (bids.head_before _ member)
      · intro entry member
        rcases mem_cons.mp member with rfl | member
        · exact UInt64.le_refl _
        · exact UInt64.le_of_lt (asks.head_before _ member)
      · exact uncrossed bid (same ▸ mem_cons_self) ask (other ▸ mem_cons_self)

end FinanceTech.Proofs.MatchingUncrossed
