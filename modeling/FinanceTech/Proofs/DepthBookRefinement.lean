import FinanceTech.Proofs.FlatMapSlots
import Mathlib.Algebra.Order.Ring.Int
import Mathlib.Data.List.Infix

/-! The depth book holds what its updates say, up to the first update that
returns to the price an empty side held last. Its slot still shows that price:
a push then takes it for live, and an erase counts the size below zero. -/

namespace FinanceTech.Proofs.DepthBookRefinement
open List Library SortedMap MarketDepth FlatMapSlots MarketDepthBook

variable {K V : Type} [LinearOrder K] {ordering : SortOrder}

/-- The live slots are exactly the entries, in their order. -/
structure Holds (map : FlatMap K V ordering) (levels : Map K V (before ordering)) : Prop where
  size : map.size = levels.entries.length
  live : map.data.take map.size = nodes levels.entries

/-- What a side needs to go on: its array, and the price its front slot shows
while it is empty. -/
structure Keeps (map : FlatMap K V ordering) (ladder : Ladder K V ordering) : Prop where
  stores : ∃ stale, Stores map ladder.levels.entries stale
  capacity : map.capacity = maxDepth
  shows : ladder.levels.entries = [] → map.front.map Node.key = some ladder.vacated

theorem Keeps.holds {map : FlatMap K V ordering} {ladder : Ladder K V ordering} (keeps : Keeps map ladder) :
    Holds map ladder.levels := by
  obtain ⟨stale, stores⟩ := keeps.stores
  refine ⟨stores.size, ?_⟩
  rw [stores.data, stores.size, ← nodes_length, take_left']
  rfl

private theorem Keeps.stale_iff {map : FlatMap K V ordering} {ladder : Ladder K V ordering} (keeps : Keeps map ladder) (price : K) :
    Stale map price ↔ ladder.Returns price := by
  obtain ⟨stale, stores⟩ := keeps.stores
  unfold Stale Ladder.Returns
  rw [stores.size, length_eq_zero_iff]
  refine and_congr_right fun empty => ?_
  rw [keeps.shows empty, Option.some_inj]

/-- The array of a side that holds something may show anything behind it. -/
private theorem keeps_live {next : FlatMap K V ordering} {front back : Entries K V} {entry : (_ : K) × V} {stale : List (Node K V)}
    {after : Ladder K V ordering} (same : after.levels.entries = front ++ entry :: back)
    (stores : Stores next (front ++ entry :: back) stale) (capacity : next.capacity = maxDepth) : Keeps next after := by
  refine ⟨⟨stale, same ▸ stores⟩, capacity, fun empty => ?_⟩
  rw [same] at empty
  simp at empty

/-- A new price takes a slot, given that the empty side does not show it. -/
theorem Keeps.push_fresh {map : FlatMap K V ordering} {ladder : Ladder K V ordering} {price : K} {quantity : V}
    {front back : Entries K V} (keeps : Keeps map ladder) (whole : ladder.levels.entries = front ++ back)
    (room : (front ++ ⟨price, quantity⟩ :: back : Entries K V).length ≤ maxDepth) (fresh : ¬ ladder.Returns price)
    (passed : ∀ entry ∈ front, before ordering entry.1 price) (later : ∀ entry ∈ back, before ordering price entry.1) :
    ∃ next stale, map.push price quantity = some (next, some front.length) ∧
      Stores next (front ++ ⟨price, quantity⟩ :: back) stale ∧ next.capacity = maxDepth := by
  obtain ⟨stale, stores⟩ := keeps.stores
  rw [whole] at stores
  have held := stores.room
  rw [keeps.capacity, length_append] at held
  rw [length_append, length_cons] at room
  cases stale with
  | nil =>
    rw [length_nil] at held
    omega
  | cons slot stale =>
    by_cases behind : back = [] ∧ front ≠ []
    · obtain ⟨rfl, nonempty⟩ := behind
      rw [append_nil] at stores
      obtain ⟨next, pushed, kept⟩ := stores.push_behind nonempty passed quantity
      have grown := kept.room
      rw [length_append, length_cons] at grown
      rw [length_cons] at held
      exact ⟨next, stale, pushed, kept, by omega⟩
    · have between : back = [] → front = [] ∧ slot.key ≠ price := by
        rintro rfl
        have empty : front = [] := by_contra fun nonempty => behind ⟨rfl, nonempty⟩
        subst empty
        have shown := keeps.shows whole
        rw [stores.packed.front_stale] at shown
        exact ⟨rfl, fun same => fresh ⟨whole, (Option.some.inj shown).symm.trans same⟩⟩
      obtain ⟨next, pushed, kept⟩ := stores.push_between passed later between quantity
      have grown := kept.room
      rw [length_append, length_cons] at grown
      rw [length_cons] at held
      exact ⟨next, stale, pushed, kept, by omega⟩

section Update

variable [Zero V] [DecidableEq V] {map : FlatMap K V ordering} {ladder : Ladder K V ordering} {price : K} {quantity : V}

private theorem update_assign (live : quantity ≠ 0) :
    (ladder.update price quantity).levels = ladder.levels.insertOrAssign price quantity := if_neg live

private theorem update_erase : (ladder.update price (0 : V)).levels = ladder.levels.erase price := if_pos rfl

private theorem handlePriceUpdate_push {next final : FlatMap K V ordering} {index : Nat} (live : quantity ≠ 0)
    (pushed : map.push price quantity = some (next, some index)) (written : next.assign index quantity = some final) :
    handlePriceUpdate map price quantity = some final := by
  simp only [handlePriceUpdate, if_neg live.symm, pushed, Option.bind_eq_bind, Option.bind_some, written]

theorem handlePriceUpdate_erase {next : FlatMap K V ordering} {erased : Bool} (result : map.erase price = some (next, erased)) :
    handlePriceUpdate map price (0 : V) = some next := by
  simp only [handlePriceUpdate, if_true, result, Option.map_some]

theorem Keeps.push (keeps : Keeps map ladder) (live : quantity ≠ 0)
    (fits : (ladder.update price quantity).levels.entries.length ≤ maxDepth) (fresh : ¬ ladder.Returns price) :
    ∃ next, handlePriceUpdate map price quantity = some next ∧ Keeps next (ladder.update price quantity) := by
  have levels : (ladder.update price quantity).levels.entries = (ladder.levels.insertOrAssign price quantity).entries :=
    congrArg Map.entries (update_assign live)
  cases found : ladder.levels.find? price with
  | some old =>
    obtain ⟨stale, stores⟩ := keeps.stores
    obtain ⟨front, back, whole, assigned, -, passed, later⟩ := Map.split_found found quantity
    rw [whole] at stores
    obtain ⟨next, written, kept⟩ := stores.assign_eq quantity
    refine ⟨next, handlePriceUpdate_push live (stores.push_found passed later quantity) written,
      keeps_live (levels.trans assigned) kept ?_⟩
    rw [← keeps.capacity, ← kept.room, ← stores.room]
    simp
  | none =>
    obtain ⟨front, back, whole, assigned, passed, later⟩ := Map.split_fresh found quantity
    rw [levels, assigned] at fits
    obtain ⟨middle, stale, pushed, stores, capacity⟩ := keeps.push_fresh whole fits fresh passed later
    obtain ⟨next, written, kept⟩ := stores.assign_eq quantity
    refine ⟨next, handlePriceUpdate_push live pushed written, keeps_live (levels.trans assigned) kept ?_⟩
    rw [← capacity, ← kept.room, ← stores.room]

theorem Keeps.erase (keeps : Keeps map ladder) (fresh : ¬ ladder.Returns price) :
    ∃ next, handlePriceUpdate map price (0 : V) = some next ∧ Keeps next (ladder.update price 0) := by
  obtain ⟨stale, stores⟩ := keeps.stores
  have levels : (ladder.update price (0 : V)).levels.entries = (ladder.levels.erase price).entries :=
    congrArg Map.entries update_erase
  cases found : ladder.levels.find? price with
  | some old =>
    obtain ⟨front, back, whole, -, erased, passed, later⟩ := Map.split_found found (0 : V)
    rw [whole] at stores
    obtain ⟨next, last, result, kept, left⟩ := stores.erase_found passed later
    have after := levels.trans erased
    refine ⟨next, handlePriceUpdate_erase result, ⟨last :: stale, after ▸ kept⟩, ?_, ?_⟩
    · rw [← keeps.capacity, ← kept.room, ← stores.room]
      simp
      omega
    · intro empty
      have emptied : (ladder.update price (0 : V)).vacated = price := if_pos ⟨empty, by simp [whole]⟩
      rw [after] at empty
      rw [empty] at kept
      rw [kept.packed.front_stale, emptied]
      exact congrArg some (left empty)
  | none =>
    obtain ⟨front, back, whole, -, passed, later⟩ := Map.split_fresh found (0 : V)
    have same : (ladder.update price (0 : V)).levels.entries = ladder.levels.entries :=
      levels.trans (congrArg Map.entries (Map.erase_fresh found))
    have shown : ladder.levels.entries = [] → (ladder.update price (0 : V)).vacated = ladder.vacated := fun empty =>
      if_neg fun emptied => emptied.2 empty
    have nonempty : 0 < map.capacity := by
      rw [keeps.capacity]
      decide
    have kept : Stores map (front ++ back) stale := whole ▸ stores
    refine ⟨map, handlePriceUpdate_erase (kept.erase_absent nonempty passed later ((keeps.stale_iff price).not.mpr fresh)),
      ⟨stale, same ▸ stores⟩, keeps.capacity, ?_⟩
    rw [same]
    intro empty
    rw [shown empty]
    exact keeps.shows empty

omit [LinearOrder K] [Zero V] [DecidableEq V] in
private theorem assign_size {map next : FlatMap K V ordering} {index : Nat} {value : V} (written : map.assign index value = some next) :
    next.size = map.size := by
  simp only [FlatMap.assign, Option.bind_eq_bind, Option.bind_eq_some_iff] at written
  obtain ⟨node, -, data, -, same⟩ := written
  cases same
  rfl

theorem Keeps.returns {next : FlatMap K V ordering} (keeps : Keeps map ladder) (returns : ladder.Returns price)
    (updated : handlePriceUpdate map price quantity = some next) : ¬ Holds next (ladder.update price quantity).levels := by
  intro holds
  have stale := (keeps.stale_iff price).mpr returns
  have counted := holds.size
  by_cases zero : quantity = 0
  · subst zero
    cases (handlePriceUpdate_erase (erase_stale stale)).symm.trans updated
    have absent : ladder.levels.find? price = none := Map.first?_eq_none (head?_eq_none_iff.mpr returns.1) price
    rw [update_erase, Map.erase_fresh absent, returns.1] at counted
    cases counted
  · have written : map.assign 0 quantity = some next := by
      simpa only [handlePriceUpdate, if_neg (Ne.symm zero), push_stale stale, Option.bind_eq_bind, Option.bind_some] using updated
    rw [update_assign zero, assign_size written, stale.1] at counted
    have assigned : (ladder.levels.insertOrAssign price quantity).find? price = some quantity := by simp
    have present := Map.find?_eq_some.mp assigned
    rw [length_eq_zero_iff.mp counted.symm] at present
    cases present

end Update

structure Represents (book : MarketDepthBook K V) (ladder : DepthLadder K V) : Prop where
  bids : Keeps book.bids ladder.bids
  asks : Keeps book.asks ladder.asks

/-- A book that tells its readers what the updates say. -/
structure Faithful (book : MarketDepthBook K V) (ladder : DepthLadder K V) : Prop where
  bids : Holds book.bids ladder.bids.levels
  asks : Holds book.asks ladder.asks.levels
  bestBid : ∃ best, book.getBestBid = some best ∧ Best (· ≤ ·) ladder.bids.levels.find? best
  bestAsk : ∃ best, book.getBestAsk = some best ∧ Best (· ≥ ·) ladder.asks.levels.find? best

private theorem new_keeps [Zero K] [Zero V] : Keeps (.new maxDepth : FlatMap K V ordering) ⟨.empty, 0⟩ :=
  ⟨⟨replicate maxDepth ⟨0, 0⟩, rfl, rfl, length_replicate, (by decide : maxDepth < 2 ^ 31)⟩, rfl, fun _ => rfl⟩

theorem Keeps.best {map : FlatMap K V ordering} {ladder : Ladder K V ordering} (keeps : Keeps map ladder) :
    ∃ best, getBestPrice map = some best ∧
      Best (fun other price => other = price ∨ before ordering price other) ladder.levels.find? best := by
  obtain ⟨stale, stores⟩ := keeps.stores
  have size := stores.size
  cases whole : ladder.levels.entries with
  | nil =>
    rw [whole] at size
    exact ⟨none, if_pos (beq_iff_eq.mpr size), Map.first?_eq_none (head?_eq_none_iff.mpr whole)⟩
  | cons entry rest =>
    rw [whole] at size stores
    refine ⟨some (entry.1, entry.2), ?_, ?_⟩
    · simp [getBestPrice, FlatMap.empty, size, stores.packed.front_eq]
    · exact Map.first?_least (congrArg List.head? whole)

omit [LinearOrder K] in
private theorem best_imp {worse weaker : K → K → Prop} (implies : ∀ other price, worse other price → weaker other price)
    {side : K → Option V} {best : Option (K × V)} (holds : Best worse side best) : Best weaker side best := by
  cases best with
  | none => exact holds
  | some level => exact ⟨holds.1, fun other live => implies _ _ (holds.2 other live)⟩

theorem Represents.faithful {book : MarketDepthBook K V} {ladder : DepthLadder K V} (represents : Represents book ladder) :
    Faithful book ladder := by
  obtain ⟨bid, bestBid, bids⟩ := represents.bids.best
  obtain ⟨ask, bestAsk, asks⟩ := represents.asks.best
  refine ⟨represents.bids.holds, represents.asks.holds, ⟨bid, bestBid, best_imp ?_ bids⟩, ⟨ask, bestAsk, best_imp ?_ asks⟩⟩
  · rintro other price (same | lower)
    · exact le_of_eq same
    · exact le_of_lt lower
  · rintro other price (same | higher)
    · exact ge_of_eq same
    · exact le_of_lt higher

variable [Zero V] [DecidableEq V]

theorem Keeps.update {map : FlatMap K V ordering} {ladder : Ladder K V ordering} {price : K} {quantity : V}
    (keeps : Keeps map ladder) (fits : (ladder.update price quantity).levels.entries.length ≤ maxDepth)
    (fresh : ¬ ladder.Returns price) :
    ∃ next, handlePriceUpdate map price quantity = some next ∧ Keeps next (ladder.update price quantity) := by
  by_cases zero : quantity = 0
  · subst zero
    exact keeps.erase fresh
  · exact keeps.push zero fits fresh

theorem Represents.step {book : MarketDepthBook K V} {ladder : DepthLadder K V} {update : DepthUpdate K V}
    (represents : Represents book ladder) (fits : (ladder.step update).Fits) (fresh : ¬ ladder.Returns update) :
    ∃ next, book.handleUpdate update = some next ∧ Represents next (ladder.step update) := by
  obtain ⟨price, quantity, side⟩ := update
  cases side with
  | buy =>
    obtain ⟨bids, updated, keeps⟩ := represents.bids.update fits.bids fresh
    exact ⟨{ book with bids }, by simp [handleUpdate, buyUpdate, updated], keeps, represents.asks⟩
  | sell =>
    obtain ⟨asks, updated, keeps⟩ := represents.asks.update fits.asks fresh
    exact ⟨{ book with asks }, by simp [handleUpdate, askUpdate, updated], represents.bids, keeps⟩

theorem Represents.returns {book next : MarketDepthBook K V} {ladder : DepthLadder K V} {update : DepthUpdate K V}
    (represents : Represents book ladder) (returns : ladder.Returns update) (updated : book.handleUpdate update = some next) :
    ¬ Faithful next (ladder.step update) := by
  obtain ⟨price, quantity, side⟩ := update
  cases side with
  | buy =>
    obtain ⟨bids, moved, same⟩ := Option.bind_eq_some_iff.mp updated
    cases same
    exact fun faithful => represents.bids.returns returns moved faithful.bids
  | sell =>
    obtain ⟨asks, moved, same⟩ := Option.bind_eq_some_iff.mp updated
    cases same
    exact fun faithful => represents.asks.returns returns moved faithful.asks

variable [Zero K]

/-- Each side has room for its live prices throughout. -/
def Within (updates : List (DepthUpdate K V)) : Prop := ∀ prior, prior <+: updates → (DepthLadder.run prior).Fits

theorem within_of_inits {updates : List (DepthUpdate K V)} (room : ∀ prior ∈ updates.inits,
    (DepthLadder.run prior).bids.levels.entries.length ≤ maxDepth ∧
      (DepthLadder.run prior).asks.levels.entries.length ≤ maxDepth) : Within updates := by
  intro prior early
  obtain ⟨bids, asks⟩ := room prior ((mem_inits _ _).mpr early)
  exact ⟨bids, asks⟩

/-- The book is right after every one of the updates. -/
def FaithfulThroughout (updates : List (DepthUpdate K V)) : Prop :=
  ∀ prior, prior <+: updates → ∃ book, new.handleEvents prior = some book ∧ Faithful book (DepthLadder.run prior)

/-- No update is for the price that an empty side held last. -/
def NeverReturns (updates : List (DepthUpdate K V)) : Prop :=
  ∀ prior update, prior ++ [update] <+: updates → ¬ (DepthLadder.run prior).Returns update

theorem run_concat (updates : List (DepthUpdate K V)) (update : DepthUpdate K V) :
    DepthLadder.run (updates ++ [update]) = (DepthLadder.run updates).step update := foldl_concat _ _ _ _

omit [Zero K] in
private theorem update_find? (ladder : Ladder K V ordering) (price : K) (quantity : V) :
    (ladder.update price quantity).levels.find? = Depth.write ladder.levels.find? price quantity :=
  Map.find?_write ladder.levels price quantity

theorem run_folded (updates : List (DepthUpdate K V)) :
    (DepthLadder.run updates).bids.levels.find? = Depth.folded (fun _ => none) (writes .buy updates) ∧
      (DepthLadder.run updates).asks.levels.find? = Depth.folded (fun _ => none) (writes .sell updates) := by
  induction updates using reverseRecOn with
  | nil => exact ⟨rfl, rfl⟩
  | append_singleton updates update ih =>
    obtain ⟨price, quantity, side⟩ := update
    obtain ⟨bids, asks⟩ := ih
    rw [run_concat]
    cases side with
    | buy => simp [writes, DepthLadder.step, update_find?, bids, asks]
    | sell => simp [writes, DepthLadder.step, update_find?, bids, asks]

omit [Zero K] in
private theorem handleEvents_concat (book : MarketDepthBook K V) (updates : List (DepthUpdate K V)) (update : DepthUpdate K V) :
    book.handleEvents (updates ++ [update]) = (book.handleEvents updates).bind fun reached => reached.handleUpdate update := by
  simp [handleEvents]

theorem handleEvents_represents {updates : List (DepthUpdate K V)} (within : Within updates) (fresh : NeverReturns updates) :
    ∃ book, new.handleEvents updates = some book ∧ Represents book (DepthLadder.run updates) := by
  induction updates using reverseRecOn with
  | nil => exact ⟨new, rfl, new_keeps, new_keeps⟩
  | append_singleton updates update ih =>
    have before : updates <+: updates ++ [update] := prefix_append _ _
    obtain ⟨book, reached, represents⟩ := ih (fun prior early => within prior (early.trans before))
      (fun prior update early => fresh prior update (early.trans before))
    have fits := within _ (prefix_refl _)
    rw [run_concat] at fits ⊢
    obtain ⟨next, updated, kept⟩ := represents.step fits (fresh _ _ (prefix_refl _))
    refine ⟨next, ?_, kept⟩
    rw [handleEvents_concat, reached]
    exact updated

/-- The book is faithful to its updates throughout exactly when none of them
returns to the price that its empty side held last. -/
theorem handleEvents_faithful_iff (updates : List (DepthUpdate K V)) (within : Within updates) :
    FaithfulThroughout updates ↔ NeverReturns updates := by
  constructor
  · induction updates using reverseRecOn with
    | nil =>
      intro faithful prior update early
      simp at early
    | append_singleton updates update ih =>
      intro faithful
      have before : updates <+: updates ++ [update] := prefix_append _ _
      have room : Within updates := fun prior early => within prior (early.trans before)
      have fresh : NeverReturns updates := ih room fun prior early => faithful prior (early.trans before)
      intro prior next early
      rcases prefix_concat_iff.mp early with same | early
      · obtain ⟨rfl, last⟩ := append_inj' same rfl
        cases last
        intro returns
        obtain ⟨book, reached, represents⟩ := handleEvents_represents room fresh
        obtain ⟨final, ended, right⟩ := faithful _ (prefix_refl _)
        rw [handleEvents_concat, reached] at ended
        rw [run_concat] at right
        exact represents.returns returns ended right
      · exact fresh prior next early
  · intro fresh prior early
    have room : Within prior := fun first before => within first (before.trans early)
    obtain ⟨book, reached, represents⟩ := handleEvents_represents room fun first update before =>
      fresh first update (before.trans early)
    exact ⟨book, reached, represents.faithful⟩

theorem handleEvents_faithful_iff_moved :
    FaithfulThroughout [⟨100, 5, .buy⟩, ⟨102, 4, .sell⟩, ⟨100, 0, .buy⟩, (⟨99, 7, .buy⟩ : DepthUpdate Int Int)] ↔
      NeverReturns [⟨100, 5, .buy⟩, ⟨102, 4, .sell⟩, ⟨100, 0, .buy⟩, (⟨99, 7, .buy⟩ : DepthUpdate Int Int)] :=
  handleEvents_faithful_iff _ (within_of_inits (by decide))

/-- A bid that leaves its side empty and comes back is lost. -/
theorem returning_bid_lost :
    Within [⟨100, 5, .buy⟩, ⟨100, 0, .buy⟩, (⟨100, 7, .buy⟩ : DepthUpdate Int Int)] ∧
      ¬ FaithfulThroughout [⟨100, 5, .buy⟩, ⟨100, 0, .buy⟩, (⟨100, 7, .buy⟩ : DepthUpdate Int Int)] := by
  refine ⟨within_of_inits (by decide), fun faithful => ?_⟩
  obtain ⟨book, reached, right⟩ := faithful _ (prefix_refl _)
  obtain ⟨best, told, holds⟩ := right.bestBid
  have empty : (new.handleEvents [⟨100, 5, .buy⟩, ⟨100, 0, .buy⟩, (⟨100, 7, .buy⟩ : DepthUpdate Int Int)]).bind getBestBid =
      some none := by decide +kernel
  rw [reached, Option.bind_some, told] at empty
  cases empty
  exact absurd (holds 100) (by decide)

end FinanceTech.Proofs.DepthBookRefinement
