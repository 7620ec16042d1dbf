import FinanceTech.Proofs.OrderBookRefinement

/-! When the top of the book is real liquidity. An update of zero quantity takes
its level away, and a snapshot is taken as it comes, so levels of zero quantity
enter with snapshots and are seen when nothing is ahead of them. -/

namespace FinanceTech.Proofs.RealLiquidity
open Library Trading OrderBookRefinement

def worse : Side → Price → Price → Prop
  | .buy => (· < ·)
  | .sell => (· > ·)

def best (book : OrderBook) : Side → Option BookLevel
  | .buy => book.bestBid
  | .sell => book.bestAsk

/-- What the best bid and the best ask return has a quantity. -/
def RealTop (book : OrderBook) : Prop := ∀ side level, best book side = some level → level.quantity ≠ 0

/-- The level is the extreme one of those with a quantity, and there is none if
none has. -/
def Extreme (book : OrderBook) (side : Side) : Option BookLevel → Prop
  | none => ∀ price quantity, (book.levels side).find? price = some quantity → quantity = 0
  | some level => (book.levels side).find? level.price = some level.quantity ∧ level.quantity ≠ 0 ∧
      ∀ price quantity, (book.levels side).find? price = some quantity → quantity ≠ 0 →
        price = level.price ∨ worse side price level.price

structure Exposed (side : Side) (quantities : Price → Option Quantity) (price : Price) : Prop where
  zero : quantities price = some 0
  first : ∀ other, quantities other ≠ none → ¬ worse side price other

/-- The levels of a side, one price left out. -/
def without (price : Price) (quantities : Price → Option Quantity) : Price → Option Quantity :=
  fun other => if other = price then none else quantities other

structure Applies (builder : BookBuilder) (book : OrderBook) (update : BookUpdate) : Prop where
  instrument : update.instrument = builder.instrument
  valid : book.valid = true
  sequence : update.sequence = book.sequenceNumber + 1

/-- No level of zero quantity becomes the first of its side: not with a snapshot,
and not when an update takes away the level that was ahead of it. -/
def Covers (builder : BookBuilder) (state : BookState) : BookEvent → Prop
  | .snapshot _ bids asks _ _ => ∀ price, ¬ Exposed .buy bids.find? price ∧ ¬ Exposed .sell asks.find? price
  | .update update _ => Applies builder state.book update → update.quantity = 0 →
      ∀ price, ¬ Exposed update.side (without update.price (state.book.levels update.side).find?) price
  | .clear => True

theorem worse_asymm {side : Side} {first second : Price} (behind : worse side first second) : ¬ worse side second first := by
  cases side with
  | buy => exact asymm (r := fun left right : Price => left < right) behind
  | sell => exact asymm (r := fun left right : Price => left < right) behind

variable {book : OrderBook}

theorem best_spec {side : Side} {level : BookLevel} (found : best book side = some level) :
    (book.levels side).find? level.price = some level.quantity ∧
      ∀ other, (book.levels side).find? other ≠ none → other = level.price ∨ worse side other level.price := by
  cases side with
  | buy =>
    obtain ⟨entry, last, rfl⟩ := Option.map_eq_some_iff.mp found
    exact SortedMap.Map.last?_greatest last
  | sell =>
    obtain ⟨entry, first, rfl⟩ := Option.map_eq_some_iff.mp found
    exact SortedMap.Map.first?_least first

theorem best_none {side : Side} (absent : best book side = none) (price : Price) : (book.levels side).find? price = none := by
  cases side with
  | buy => exact SortedMap.Map.last?_eq_none (Option.map_eq_none_iff.mp absent) price
  | sell => exact SortedMap.Map.first?_eq_none (Option.map_eq_none_iff.mp absent) price

private theorem realTop_iff_extreme : RealTop book ↔ ∀ side, Extreme book side (best book side) := by
  constructor
  · intro real side
    cases top : best book side with
    | none =>
      intro price quantity found
      rw [best_none top] at found
      cases found
    | some level =>
      obtain ⟨found, others⟩ := best_spec top
      refine ⟨found, real side level top, fun price quantity present _ => others price ?_⟩
      rw [present]
      exact Option.some_ne_none quantity
  · intro extreme side level top
    have here := extreme side
    rw [top] at here
    exact here.2.1

private theorem realTop_iff_covered : RealTop book ↔ ∀ side price, ¬ Exposed side (book.levels side).find? price := by
  constructor
  · rintro real side price ⟨zero, first⟩
    have present : (book.levels side).find? price ≠ none := by
      rw [zero]
      exact Option.some_ne_none 0
    cases top : best book side with
    | none => exact present (best_none top price)
    | some level =>
      obtain ⟨found, others⟩ := best_spec top
      have ahead : (book.levels side).find? level.price ≠ none := by
        rw [found]
        exact Option.some_ne_none _
      rcases others price present with own | behind
      · rw [own, found] at zero
        exact real side level top (Option.some.inj zero)
      · exact first level.price ahead behind
  · intro covered side level top zero
    obtain ⟨found, others⟩ := best_spec top
    refine covered side level.price ⟨zero ▸ found, fun other present behind => ?_⟩
    rcases others other present with own | other_behind
    · rw [own] at behind
      exact worse_asymm behind behind
    · exact worse_asymm behind other_behind

private theorem exposed_written {side : Side} {quantities : Price → Option Quantity} {price written : Price} {quantity : Quantity}
    (some : quantity ≠ 0) (exposed : Exposed side (Depth.write quantities written quantity) price) :
    Exposed side quantities price := by
  obtain ⟨zero, first⟩ := exposed
  have other : price ≠ written := by
    rintro rfl
    rw [Depth.write_self, if_neg some] at zero
    exact some (Option.some.inj zero)
  rw [Depth.write_ne _ other] at zero
  refine ⟨zero, fun ahead present => first ahead ?_⟩
  by_cases own : ahead = written
  · rw [own, Depth.write_self, if_neg some]
    exact Option.some_ne_none quantity
  · rwa [Depth.write_ne _ own]

theorem write_zero (quantities : Price → Option Quantity) (price : Price) :
    Depth.write quantities price (0 : Quantity) = without price quantities := by
  funext other
  by_cases own : other = price
  · rw [own, Depth.write_self, if_pos rfl, without, if_pos rfl]
  · rw [Depth.write_ne _ own, without, if_neg own]

section Update

variable {builder : BookBuilder} {state : BookState} {update : BookUpdate}

private theorem applied_levels (applies : Applies builder state.book update) (receiveTimestamp : Timestamp) (side : Side) :
    ((state.step builder (.update update receiveTimestamp)).book.levels side).find? =
      if side = update.side then Depth.write (state.book.levels side).find? update.price update.quantity
      else (state.book.levels side).find? := by
  have own : ¬ update.instrument ≠ builder.instrument := not_not.mpr applies.instrument
  have applied := (applyUpdate_next applies.valid applies.sequence).1
  rw [← applyUpdate_levels applies.valid applies.sequence]
  simp only [BookState.step, BookBuilder.onBookUpdate, if_neg own, applied, Bool.not_true, Bool.false_eq_true, if_false]

private theorem ignored_levels (ignored : ¬ Applies builder state.book update) (receiveTimestamp : Timestamp) (side : Side) :
    (state.step builder (.update update receiveTimestamp)).book.levels side = state.book.levels side := by
  by_cases own : update.instrument = builder.instrument
  · have refused : (state.book.applyUpdate update).1 = false ∧ (state.book.applyUpdate update).2.levels side = state.book.levels side := by
      cases valid : state.book.valid with
      | false =>
        rw [applyUpdate_invalid valid]
        exact ⟨rfl, rfl⟩
      | true =>
        rw [applyUpdate_gap fun next => ignored ⟨own, valid, next⟩]
        cases side <;> exact ⟨rfl, rfl⟩
    simp only [BookState.step, BookBuilder.onBookUpdate, if_neg (not_not.mpr own), refused, Bool.not_false, if_true]
  · simp only [BookState.step, BookBuilder.onBookUpdate, if_pos own]

private theorem update_covered (covered : ∀ side price, ¬ Exposed side (state.book.levels side).find? price) (receiveTimestamp : Timestamp) :
    (∀ side price, ¬ Exposed side ((state.step builder (.update update receiveTimestamp)).book.levels side).find? price) ↔
      Covers builder state (.update update receiveTimestamp) := by
  by_cases applies : Applies builder state.book update
  · simp only [applied_levels applies, Covers]
    constructor
    · intro kept _ zero price
      have own := kept update.side price
      rwa [if_pos rfl, zero, write_zero] at own
    · intro covers side price
      by_cases own : side = update.side
      · cases own
        rw [if_pos rfl]
        by_cases zero : update.quantity = 0
        · rw [zero, write_zero]
          exact covers applies zero price
        · exact fun exposed => covered _ price (exposed_written zero exposed)
      · rw [if_neg own]
        exact covered side price
  · simp only [ignored_levels applies]
    exact iff_of_true covered fun applied => absurd applied applies

end Update

theorem step_real (builder : BookBuilder) {state : BookState} (real : RealTop state.book) (event : BookEvent) :
    RealTop (state.step builder event).book ↔ Covers builder state event := by
  rw [realTop_iff_covered] at real ⊢
  cases event with
  | snapshot sequence bids asks exchangeTimestamp receiveTimestamp =>
    constructor
    · exact fun covered price => ⟨covered .buy price, covered .sell price⟩
    · intro covers side price
      cases side with
      | buy => exact (covers price).1
      | sell => exact (covers price).2
  | update update receiveTimestamp => exact update_covered real receiveTimestamp
  | clear =>
    refine iff_of_true (fun side price exposed => ?_) trivial
    have zero := exposed.zero
    cases side <;> cases zero

/-- The top of the book is real liquidity after every part of a run exactly when
no snapshot starts with a level of zero quantity and no update uncovers one; and
it is real exactly when it is the extreme level of those with a quantity. -/
theorem real_liquidity_iff (builder : BookBuilder) (events : List BookEvent) :
    ((∀ before, before <+: events → RealTop (BookState.run builder before).book) ↔
      Runs.AtEveryStep (BookState.step builder) (Covers builder) {} events) ∧
    ∀ before, before <+: events → (RealTop (BookState.run builder before).book ↔
      ∀ side, Extreme (BookState.run builder before).book side (best (BookState.run builder before).book side)) := by
  refine ⟨?_, fun _ _ => realTop_iff_extreme⟩
  have initial : RealTop ({} : BookState).book := by
    intro side level found
    cases side <;> cases found
  exact Runs.throughout_iff (fun state : BookState => RealTop state.book)
    (fun state event real => step_real builder real event) events initial

/-- A snapshot with an empty best bid is published as it is. -/
theorem empty_level_published : ∃ builder events level,
    (BookState.run builder events).book.bestBid = some level ∧ level.quantity = 0 ∧ level.price ≠ 0 ∧
      (BookState.run builder events).published.map MarketEvent.bestBid = [level.price] := by
  let bids : Levels := (SortedMap.Map.empty.insertOrAssign ⟨100⟩ ⟨5⟩).insertOrAssign ⟨101⟩ 0
  exact ⟨{ instrument := 1 }, [.snapshot 1 bids .empty 0 0], { price := ⟨101⟩, quantity := 0 }, rfl, rfl, by decide, rfl⟩

end FinanceTech.Proofs.RealLiquidity
