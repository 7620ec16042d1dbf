import FinanceTech.PricingEngine
import FinanceTech.Proofs.DepthBookRefinement
import FinanceTech.Proofs.FlatSideRefinement

/-! Three books take the same updates of a depth feed: the sorted maps of the
pricing engine, the flat sides and the depth book. The maps hold what is written
whatever comes; the two arrays hold the maps, level by level, under their own
conditions. -/

namespace FinanceTech.Proofs.DepthBooksAgree
open List Library Pricing FlatLevelMap MarketDepth FlatSideBounds FlatSideRefinement DepthBookRefinement FlatMapSlots
open SortedMap (Map)

variable {K V : Type} [LinearOrder K] [Zero V] [DecidableEq V]

def engineStep (engine : PricingEngine K V) (update : DepthUpdate K V) : PricingEngine K V :=
  match update.side with
  | .buy => engine.handleBidUpdate ⟨update.price, update.quantity⟩
  | .sell => engine.handleAskUpdate ⟨update.price, update.quantity⟩

def engineRun (updates : List (DepthUpdate K V)) : PricingEngine K V := updates.foldl engineStep {}

def flatStep (book : DepthBook K V) (update : DepthUpdate K V) : Option (DepthBook K V) :=
  match update.side with
  | .buy => (book.bids.update update.price update.quantity).map fun bids => { book with bids }
  | .sell => (book.asks.update update.price update.quantity).map fun asks => { book with asks }

def flatRun [Zero K] (maxLevels : Nat) (updates : List (DepthUpdate K V)) : Option (DepthBook K V) :=
  updates.foldlM flatStep (.new maxLevels)

/-- The maps have no more prices than this at any time. -/
def EngineWithin (maxLevels : Nat) (updates : List (DepthUpdate K V)) : Prop :=
  ∀ prior, prior <+: updates → (engineRun prior).bidPriceLevelMap.entries.length ≤ maxLevels ∧
    (engineRun prior).askPriceLevelMap.entries.length ≤ maxLevels

/-- A side of the flat book and of the depth book with the levels of a map. -/
structure SideAgrees {before : K → K → Prop} {ordering : SortOrder} {isBid : Bool} (levelMap : LevelMap K V before)
    (flat : FlatSide K V isBid) (map : FlatMap K V ordering) : Prop where
  levels : flat.levels = listed levelMap.entries
  live : map.data.take map.size = nodes levelMap.entries

/-- All three show the same levels in the same order, and the same best prices. -/
structure Agree [Zero K] (engine : PricingEngine K V) (flat : DepthBook K V) (book : MarketDepthBook K V) : Prop where
  bids : SideAgrees engine.bidPriceLevelMap flat.bids book.bids
  asks : SideAgrees engine.askPriceLevelMap flat.asks book.asks
  bestBid : flat.bestBid = some (engine.bidPriceLevelMap.first?.elim 0 Sigma.fst) ∧
    book.getBestBid = some (engine.bidPriceLevelMap.first?.map fun entry => (entry.1, entry.2))
  bestAsk : flat.bestAsk = some (engine.askPriceLevelMap.first?.elim 0 Sigma.fst) ∧
    book.getBestAsk = some (engine.askPriceLevelMap.first?.map fun entry => (entry.1, entry.2))

private theorem engineStep_buy (engine : PricingEngine K V) (price : K) (quantity : V) :
    engineStep engine ⟨price, quantity, .buy⟩ = { engine with bidPriceLevelMap := engine.bidPriceLevelMap.write price quantity } := by
  simp only [engineStep, PricingEngine.handleBidUpdate, Map.write]
  split
  · rfl
  · rfl

private theorem engineStep_sell (engine : PricingEngine K V) (price : K) (quantity : V) :
    engineStep engine ⟨price, quantity, .sell⟩ = { engine with askPriceLevelMap := engine.askPriceLevelMap.write price quantity } := by
  simp only [engineStep, PricingEngine.handleAskUpdate, Map.write]
  split
  · rfl
  · rfl

private theorem engineRun_concat (updates : List (DepthUpdate K V)) (update : DepthUpdate K V) :
    engineRun (updates ++ [update]) = engineStep (engineRun updates) update := foldl_concat _ _ _ _

omit [LinearOrder K] [Zero V] [DecidableEq V] in
theorem writes_concat (side : Side) (updates : List (DepthUpdate K V)) (update : DepthUpdate K V) :
    writes side (updates ++ [update]) =
      writes side updates ++ if update.side = side then [(update.price, update.quantity)] else [] := by
  rw [writes, filter_append, map_append]
  by_cases same : update.side = side
  · simp [writes, same]
  · simp [writes, same]

theorem engineRun_written (updates : List (DepthUpdate K V)) :
    (engineRun updates).bidPriceLevelMap.find? = written (writes .buy updates) ∧
      (engineRun updates).askPriceLevelMap.find? = written (writes .sell updates) := by
  induction updates using reverseRecOn with
  | nil => exact ⟨rfl, rfl⟩
  | append_singleton updates update ih =>
    obtain ⟨bids, asks⟩ := ih
    obtain ⟨price, quantity, side⟩ := update
    rw [engineRun_concat, writes_concat, writes_concat]
    cases side with
    | buy =>
      rw [engineStep_buy, if_pos rfl, if_neg nofun, append_nil, written_concat, ← bids]
      exact ⟨Map.find?_write _ _ _, asks⟩
    | sell =>
      rw [engineStep_sell, if_pos rfl, if_neg nofun, append_nil, written_concat, ← asks]
      exact ⟨bids, Map.find?_write _ _ _⟩

section Flat

variable {before : K → K → Prop} {isBid : Bool} {maxLevels : Nat} {side : FlatSide K V isBid}

/-- A map whose order is that of the side. -/
def better (ordered : ∀ first second : K, before first second → Better isBid first second) (map : Map K V before) :
    Map K V (Better isBid) :=
  ⟨map.entries, map.sorted.imp fun earlier => ordered _ _ earlier⟩

omit [Zero V] [DecidableEq V] in
private theorem atMost_of_length (ordered : ∀ first second : K, before first second → Better isBid first second) {map : Map K V before}
    (few : map.entries.length ≤ maxLevels) : AtMost maxLevels map.find? :=
  (@atMost_iff K V isBid _ (better ordered map) maxLevels).mpr few

theorem packed_of_stored {updates : List (K × V)} (stored : Stored maxLevels updates side)
    (ordered : ∀ first second : K, before first second → Better isBid first second) {map : Map K V before}
    (same : map.find? = written updates) : ∃ stale, FlatSideRefinement.Packed maxLevels side map.entries stale := by
  obtain ⟨held, stale, packed, shown⟩ := stored
  have equal : held = better ordered map := Map.ext_find? fun key => (congrFun (same.trans shown) key).symm
  subst equal
  exact ⟨stale, packed⟩

/-- One side of the flat book takes an update, or is left as it is. -/
theorem flatSide_step {updates : List (K × V)} {update : K × V} (stored : Stored maxLevels updates side) (small : maxLevels ≤ 2 ^ 31)
    (ordered : ∀ first second : K, before first second → Better isBid first second) {map : Map K V before}
    (few : map.entries.length ≤ maxLevels) (same : map.find? = written (updates ++ [update])) :
    ∃ next, side.update update.1 update.2 = some next ∧ Stored maxLevels (updates ++ [update]) next :=
  stored.step_near (same ▸ atMost_of_length ordered few) (stored.near small update.1)

end Flat

omit [Zero V] [DecidableEq V] in
theorem better_bid (first second : K) (earlier : first > second) : Better true first second := decide_eq_true earlier

omit [Zero V] [DecidableEq V] in
theorem better_ask (first second : K) (earlier : first < second) : Better false first second := decide_eq_true earlier

private theorem flatRun_stored [Zero K] {maxLevels : Nat} (small : maxLevels ≤ 2 ^ 31) {updates : List (DepthUpdate K V)}
    (room : EngineWithin maxLevels updates) : ∃ book : DepthBook K V, flatRun maxLevels updates = some book ∧
      Stored maxLevels (writes .buy updates) book.bids ∧ Stored maxLevels (writes .sell updates) book.asks := by
  induction updates using reverseRecOn with
  | nil => exact ⟨.new maxLevels, rfl, new_stored true maxLevels, new_stored false maxLevels⟩
  | append_singleton updates update ih =>
    obtain ⟨book, ran, bids, asks⟩ := ih fun prior early => room prior (early.trans (prefix_append _ _))
    obtain ⟨fewBids, fewAsks⟩ := room _ (prefix_refl _)
    obtain ⟨wroteBids, wroteAsks⟩ := engineRun_written (updates ++ [update])
    have stepped : flatRun maxLevels (updates ++ [update]) = flatStep book update := Runs.foldlM_concat_some ran update
    rw [writes_concat] at wroteBids wroteAsks ⊢
    rw [writes_concat, stepped]
    obtain ⟨price, quantity, side⟩ := update
    cases side with
    | buy =>
      rw [if_pos rfl] at wroteBids ⊢
      obtain ⟨next, moved, stored⟩ := flatSide_step bids small better_bid fewBids wroteBids
      refine ⟨{ book with bids := next }, congrArg (Option.map _) moved, stored, ?_⟩
      rwa [if_neg nofun, append_nil]
    | sell =>
      rw [if_pos rfl] at wroteAsks
      rw [if_neg nofun, append_nil, if_pos rfl]
      obtain ⟨next, moved, stored⟩ := flatSide_step asks small better_ask fewAsks wroteAsks
      exact ⟨{ book with asks := next }, congrArg (Option.map _) moved, bids, stored⟩

omit [LinearOrder K] [Zero V] [DecidableEq V] in
theorem bestPrice_eq [Zero K] {before : K → K → Prop} {isBid : Bool} {maxLevels : Nat} {side : FlatSide K V isBid}
    {map : Map K V before} {stale : List (FlatLevelMap.PriceLevel K V)} (packed : FlatSideRefinement.Packed maxLevels side map.entries stale) :
    DepthBook.bestPrice side = some (map.first?.elim 0 Sigma.fst) := by
  rw [DepthBook.bestPrice, packed.size, packed.lvls, Map.first?]
  cases map.entries with
  | nil => rfl
  | cons entry rest => rfl

omit [LinearOrder K] [Zero V] [DecidableEq V] in
theorem getBestPrice_eq {before : K → K → Prop} {ordering : SortOrder} {map : FlatMap K V ordering} {levelMap : LevelMap K V before}
    (size : map.size = levelMap.entries.length) (live : map.data.take map.size = nodes levelMap.entries) :
    MarketDepthBook.getBestPrice map = some (levelMap.first?.map fun entry => (entry.1, entry.2)) := by
  unfold MarketDepthBook.getBestPrice FlatMap.empty FlatMap.front Map.first?
  cases whole : levelMap.entries with
  | nil =>
    rw [whole] at size
    simp [size]
  | cons entry rest =>
    have front : (map.data.take map.size)[0]? = some ⟨entry.1, entry.2⟩ := by
      rw [live, whole]
      rfl
    rw [getElem?_take] at front
    rw [whole] at size
    simp only [size, length_cons, Nat.zero_lt_succ, if_true] at front
    simp [size, front]

private theorem engine_ladder [Zero K] (updates : List (DepthUpdate K V)) :
    (engineRun updates).bidPriceLevelMap = (DepthLadder.run updates).bids.levels ∧
      (engineRun updates).askPriceLevelMap = (DepthLadder.run updates).asks.levels := by
  obtain ⟨bids, asks⟩ := engineRun_written updates
  obtain ⟨ladderBids, ladderAsks⟩ := run_folded updates
  refine ⟨?_, ?_⟩
  · exact @Map.ext_find? K V (before .descending) _ _ _ _ fun key => congrFun (bids.trans ladderBids.symm) key
  · exact @Map.ext_find? K V (before .ascending) _ _ _ _ fun key => congrFun (asks.trans ladderAsks.symm) key

/-- The engine is at what the updates write. The flat sides follow it while no side
has more prices than levels, and the depth book while its sides have room and no
update returns to the price that an empty side held last. -/
theorem books_agree [Zero K] (maxLevels : Nat) (updates : List (DepthUpdate K V)) (small : maxLevels ≤ 2 ^ 31)
    (room : EngineWithin maxLevels updates) (within : Within updates) (fresh : NeverReturns updates) :
    ∃ flat book, flatRun maxLevels updates = some flat ∧ MarketDepthBook.new.handleEvents updates = some book ∧
      (engineRun updates).bidPriceLevelMap.find? = written (writes .buy updates) ∧
      (engineRun updates).askPriceLevelMap.find? = written (writes .sell updates) ∧
      Agree (engineRun updates) flat book := by
  obtain ⟨wroteBids, wroteAsks⟩ := engineRun_written updates
  obtain ⟨flat, ran, storedBids, storedAsks⟩ := flatRun_stored small room
  obtain ⟨book, handled, represents⟩ := handleEvents_represents within fresh
  obtain ⟨staleBids, packedBids⟩ := packed_of_stored storedBids better_bid wroteBids
  obtain ⟨staleAsks, packedAsks⟩ := packed_of_stored storedAsks better_ask wroteAsks
  obtain ⟨sameBids, sameAsks⟩ := engine_ladder updates
  have heldBids := represents.bids.holds
  have heldAsks := represents.asks.holds
  rw [← sameBids] at heldBids
  rw [← sameAsks] at heldAsks
  exact ⟨flat, book, ran, handled, wroteBids, wroteAsks, {
    bids := ⟨packedBids.levels_eq, heldBids.live⟩
    asks := ⟨packedAsks.levels_eq, heldAsks.live⟩
    bestBid := ⟨bestPrice_eq packedBids, getBestPrice_eq heldBids.size heldBids.live⟩
    bestAsk := ⟨bestPrice_eq packedAsks, getBestPrice_eq heldAsks.size heldAsks.live⟩ }⟩

private theorem engineWithin_of_inits {maxLevels : Nat} {updates : List (DepthUpdate K V)} (room : ∀ prior ∈ updates.inits,
    (engineRun prior).bidPriceLevelMap.entries.length ≤ maxLevels ∧ (engineRun prior).askPriceLevelMap.entries.length ≤ maxLevels) :
    EngineWithin maxLevels updates :=
  fun prior early => room prior ((mem_inits _ _).mpr early)

private theorem neverReturns_of_steps [Zero K] {updates : List (DepthUpdate K V)}
    (fresh : Runs.AtEveryStep DepthLadder.step (fun ladder update => ¬ ladder.Returns update) ⟨⟨.empty, 0⟩, ⟨.empty, 0⟩⟩ updates) :
    NeverReturns updates := by
  intro prior update early
  obtain ⟨after, whole⟩ := Runs.concat_prefix_iff.mp early
  exact (Runs.atEveryStep_iff updates).mp fresh prior update after whole

instance (ladder : DepthLadder K V) (update : DepthUpdate K V) : Decidable (ladder.Returns update) :=
  match update with
  | ⟨_, _, .buy⟩ => inferInstanceAs (Decidable (_ ∧ _))
  | ⟨_, _, .sell⟩ => inferInstanceAs (Decidable (_ ∧ _))

/-- Four updates, the last of which takes a bid away again. -/
theorem books_agree_four : ∃ flat book,
    flatRun 2 [⟨100, 5, .buy⟩, ⟨102, 4, .sell⟩, ⟨101, 3, .buy⟩, (⟨100, 0, .buy⟩ : DepthUpdate Int Int)] = some flat ∧
    MarketDepthBook.new.handleEvents [⟨100, 5, .buy⟩, ⟨102, 4, .sell⟩, ⟨101, 3, .buy⟩, (⟨100, 0, .buy⟩ : DepthUpdate Int Int)] = some book ∧
    Agree (engineRun [⟨100, 5, .buy⟩, ⟨102, 4, .sell⟩, ⟨101, 3, .buy⟩, (⟨100, 0, .buy⟩ : DepthUpdate Int Int)]) flat book := by
  have room : EngineWithin 2 [⟨100, 5, .buy⟩, ⟨102, 4, .sell⟩, ⟨101, 3, .buy⟩, (⟨100, 0, .buy⟩ : DepthUpdate Int Int)] :=
    engineWithin_of_inits (by decide)
  obtain ⟨flat, book, ran, handled, -, -, agree⟩ := books_agree 2 _ (by decide) room (within_of_inits (by decide))
    (neverReturns_of_steps (by decide))
  exact ⟨flat, book, ran, handled, agree⟩

end FinanceTech.Proofs.DepthBooksAgree
