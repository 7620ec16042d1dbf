import FinanceTech.Library.Depth
import FinanceTech.PriceLevelBook
import Mathlib.Algebra.Order.Ring.Int

/-! A side of the book against the feed. It has the prices that the feed says are
live, each with the quantity it came with: a later quantity of a live price is
not taken over. -/

namespace FinanceTech.Proofs.FeedReplay
open List TradingSystem
open Library.SortedMap (Map)
open Library.Depth (lastWrite lastWrite_append settled)

variable {Price Quantity : Type} [LinearOrder Price] [Zero Quantity] [DecidableEq Quantity]

def writes (levels : List (PriceLevel Price Quantity)) : List (Price × Quantity) := levels.map fun lvl => (lvl.price, lvl.quantity)

/-- The updates that events make to one side. -/
def updates (levels : Depth Price Quantity → List (PriceLevel Price Quantity)) (events : List (Event Price Quantity)) :
    List (Price × Quantity) :=
  (events.filter fun event => event.type = .depthUpdate).flatMap fun event => writes (levels event.depth)

def bids (events : List (Event Price Quantity)) : List (Price × Quantity) := updates Depth.bid events

def asks (events : List (Event Price Quantity)) : List (Price × Quantity) := updates Depth.ask events

/-- A side has exactly the prices whose last update is not zero, with the quantity
of that update. -/
def Follows {before : Price → Price → Prop} (orders : Map Price Quantity before) (updates : List (Price × Quantity)) : Prop :=
  ∀ price, orders.find? price = (lastWrite price updates).elim none settled

/-- A price that comes to be live and is not removed again has at last the
quantity that it came with. -/
def Steady (updates : List (Price × Quantity)) : Prop :=
  ∀ front price quantity back, updates = front ++ (price, quantity) :: back → quantity ≠ 0 →
    (∀ held, lastWrite price front = some held → held = 0) → (price, 0) ∉ back →
    ∀ last, lastWrite price back = some last → last = quantity

section Side

variable {before : Price → Price → Prop} [IsStrictTotalOrder Price before] [DecidableRel before]

/-- A side after some updates. -/
def replay (updates : List (Price × Quantity)) : Map Price Quantity before :=
  updates.foldl (fun orders update => PriceLevelBook.handleLevel orders ⟨update.1, update.2⟩) .empty

theorem replay_concat (updates : List (Price × Quantity)) (update : Price × Quantity) :
    (replay (updates ++ [update]) : Map Price Quantity before) = PriceLevelBook.handleLevel (replay updates) ⟨update.1, update.2⟩ :=
  foldl_concat ..

theorem find?_handleLevel (orders : Map Price Quantity before) (lvl : PriceLevel Price Quantity) (price : Price) :
    (PriceLevelBook.handleLevel orders lvl).find? price =
      if price = lvl.price then if lvl.quantity = 0 then none else (orders.find? price).or (some lvl.quantity)
      else orders.find? price := by
  unfold PriceLevelBook.handleLevel
  by_cases zero : lvl.quantity = 0
  · rw [if_pos zero, if_pos zero, Map.find?_erase]
  · rw [if_neg zero, if_neg zero, Map.find?_emplace]
    split
    · rfl
    · exact Option.or_none

omit [Zero Quantity] [DecidableEq Quantity] in
private theorem lastWrite_concat (updates : List (Price × Quantity)) (update : Price × Quantity) (price : Price) :
    lastWrite price (updates ++ [update]) = if update.1 = price then some update.2 else lastWrite price updates := by
  rw [lastWrite_append]
  by_cases same : update.1 = price
  · simp [lastWrite, same]
  · simp [lastWrite, same]

theorem find?_replay_eq_none (updates : List (Price × Quantity)) (price : Price) :
    (replay updates : Map Price Quantity before).find? price = none ↔ ∀ held, lastWrite price updates = some held → held = 0 := by
  induction updates using List.reverseRecOn with
  | nil => exact iff_of_true rfl fun _ written => nomatch written
  | append_singleton updates update ih =>
    rw [replay_concat, find?_handleLevel, lastWrite_concat]
    by_cases same : price = update.1
    · rw [if_pos same, if_pos same.symm]
      simp
    · rw [if_neg same, if_neg (Ne.symm same)]
      exact ih

private theorem find?_replay_keeps {front back : List (Price × Quantity)} {price : Price} {quantity : Quantity}
    (held : (replay front : Map Price Quantity before).find? price = some quantity) (stays : (price, 0) ∉ back) :
    (replay (front ++ back) : Map Price Quantity before).find? price = some quantity := by
  induction back using List.reverseRecOn with
  | nil => rwa [append_nil]
  | append_singleton back update ih =>
    rw [mem_append, not_or] at stays
    rw [← append_assoc, replay_concat, find?_handleLevel, ih stays.1]
    split
    next same =>
      have positive : update.2 ≠ 0 := by
        intro zero
        apply stays.2
        rw [mem_singleton, same, ← zero]
      rw [if_neg positive]
      rfl
    next => rfl

private theorem find?_replay_comes {front : List (Price × Quantity)} {price : Price} {quantity : Quantity} (positive : quantity ≠ 0)
    (absent : ∀ held, lastWrite price front = some held → held = 0) :
    (replay (front ++ [(price, quantity)]) : Map Price Quantity before).find? price = some quantity := by
  rw [replay_concat, find?_handleLevel, (find?_replay_eq_none front price).mpr absent, if_pos rfl, if_neg positive]
  rfl

private theorem find?_replay_eq_some {updates : List (Price × Quantity)} {price : Price} {quantity : Quantity}
    (found : (replay updates : Map Price Quantity before).find? price = some quantity) :
    ∃ front back, updates = front ++ (price, quantity) :: back ∧ quantity ≠ 0 ∧
      (∀ held, lastWrite price front = some held → held = 0) ∧ (price, 0) ∉ back := by
  induction updates using List.reverseRecOn with
  | nil => cases found
  | append_singleton updates update ih =>
    rw [replay_concat, find?_handleLevel] at found
    have onwards : (replay updates : Map Price Quantity before).find? price = some quantity → update ≠ (price, 0) →
        ∃ front back, updates ++ [update] = front ++ (price, quantity) :: back ∧ quantity ≠ 0 ∧
          (∀ held, lastWrite price front = some held → held = 0) ∧ (price, 0) ∉ back := by
      intro held other
      obtain ⟨front, back, rfl, positive, absent, stays⟩ := ih held
      refine ⟨front, back ++ [update], by rw [append_assoc, cons_append], positive, absent, ?_⟩
      rw [mem_append, mem_singleton]
      exact not_or.mpr ⟨stays, Ne.symm other⟩
    split at found
    next same =>
      split at found
      next => cases found
      next positive =>
        cases held : (replay updates : Map Price Quantity before).find? price with
        | none =>
          rw [held] at found
          cases found
          exact ⟨updates, [], by rw [same], positive, (find?_replay_eq_none updates price).mp held, not_mem_nil⟩
        | some old =>
          rw [held] at found
          cases found
          refine onwards held fun other => positive ?_
          rw [other]
    next different =>
      refine onwards found fun other => different ?_
      rw [other]

private theorem replay_follows_iff (updates : List (Price × Quantity)) :
    Follows (replay updates : Map Price Quantity before) updates ↔ Steady updates := by
  have later (front back : List (Price × Quantity)) (price : Price) (quantity : Quantity) :
      lastWrite price (front ++ (price, quantity) :: back) = some ((lastWrite price back).getD quantity) := by
    rw [lastWrite_append, lastWrite, if_pos rfl]
    cases lastWrite price back with
    | none => rfl
    | some last => rfl
  constructor
  · rintro follows front price quantity back rfl positive absent stays last written
    have came := @find?_replay_comes _ _ _ _ _ before _ _ front price quantity positive absent
    have held := find?_replay_keeps came stays
    rw [append_assoc, singleton_append, follows price, later, written] at held
    simp only [Option.getD_some, Option.elim_some, settled] at held
    split at held
    · cases held
    · exact Option.some.inj held
  · intro steady price
    cases found : (replay updates : Map Price Quantity before).find? price with
    | none =>
      have absent := (find?_replay_eq_none updates price).mp found
      cases written : lastWrite price updates with
      | none => rfl
      | some held => rw [absent held written, Option.elim_some, settled, if_pos rfl]
    | some quantity =>
      obtain ⟨front, back, rfl, positive, absent, stays⟩ := find?_replay_eq_some found
      have same : (lastWrite price back).getD quantity = quantity := by
        cases written : lastWrite price back with
        | none => rfl
        | some last => exact steady front price quantity back rfl positive absent stays last written
      rw [later, same, Option.elim_some, settled, if_neg positive]

end Side

omit [LinearOrder Price] [Zero Quantity] [DecidableEq Quantity] in
private theorem updates_concat (levels : Depth Price Quantity → List (PriceLevel Price Quantity)) (events : List (Event Price Quantity))
    (event : Event Price Quantity) :
    updates levels (events ++ [event]) = updates levels events ++ if event.type = .depthUpdate then writes (levels event.depth) else [] := by
  rw [updates, filter_append, flatMap_append]
  by_cases update : event.type = .depthUpdate
  · simp [updates, update]
  · simp [updates, update]

theorem replay_writes {before : Price → Price → Prop} [IsStrictTotalOrder Price before] [DecidableRel before]
    (updates : List (Price × Quantity)) (levels : List (PriceLevel Price Quantity)) :
    (replay (updates ++ writes levels) : Map Price Quantity before) = levels.foldl PriceLevelBook.handleLevel (replay updates) := by
  rw [replay, foldl_append, writes, foldl_map]
  rfl

theorem processEvent_replays (events : List (Event Price Quantity)) :
    events.foldl PriceLevelBook.processEvent {} = ⟨replay (bids events), replay (asks events)⟩ := by
  induction events using List.reverseRecOn with
  | nil => rfl
  | append_singleton events event ih =>
    rw [foldl_concat, ih, PriceLevelBook.processEvent.eq_def]
    simp only [bids, asks, updates_concat]
    split
    next update =>
      rw [if_pos update, if_pos update, replay_writes, replay_writes]
      rfl
    next other =>
      rw [if_neg other, if_neg other, append_nil, append_nil]

/-- After any events each side of the book follows the feed exactly when the
updates of that side are steady. -/
theorem follows_feed_iff (events : List (Event Price Quantity)) :
    (Follows (events.foldl PriceLevelBook.processEvent {}).buyOrders (bids events) ↔ Steady (bids events)) ∧
      (Follows (events.foldl PriceLevelBook.processEvent {}).sellOrders (asks events) ↔ Steady (asks events)) := by
  rw [processEvent_replays]
  exact ⟨replay_follows_iff _, replay_follows_iff _⟩

/-- A bid of five at one hundred becomes seven, and the book still has five. -/
theorem live_price_kept :
    let events : List (Event Int Int) :=
      [{ type := .depthUpdate, depth := { bid := [⟨100, 5⟩] } }, { type := .depthUpdate, depth := { bid := [⟨100, 7⟩] } }]
    (events.foldl PriceLevelBook.processEvent {}).buyOrders.find? 100 = some 5 ∧
      ¬ Follows (events.foldl PriceLevelBook.processEvent {}).buyOrders (bids events) := by
  intro events
  have held : (events.foldl PriceLevelBook.processEvent {}).buyOrders.find? 100 = some 5 := by decide
  refine ⟨held, fun follows => ?_⟩
  have last := follows 100
  rw [held] at last
  exact absurd last (by decide)

end FinanceTech.Proofs.FeedReplay
