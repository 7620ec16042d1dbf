import FinanceTech.Proofs.LadderSoundness

/-! What the ladder shows at each depth of a side: the ticks at which the side rests,
from the best one on, each with the volume that rests there. -/

namespace FinanceTech.Proofs.LadderDepth
open List Library LinkedList PriceLevelStorage LadderConstruction LadderLevels LadderBook LadderSoundness

variable {memory : Memory} {ladder : PriceLadder} {book : Book} {place : LevelAddress} {level : PriceLevel} {side : OrderSide}

def ofSide (side : OrderSide) (book : Book) : Book := book.filter fun held => held.side = side

private theorem ofSide_cons (side : OrderSide) (held : Resting) (rest : Book) :
    tally (ofSide side (held :: rest)) = (if held.side = side then held.volume.toNat else 0) + tally (ofSide side rest) := by
  by_cases same : held.side = side
  · simp [ofSide, same, tally]
  · simp [ofSide, same, tally]

def volumeAt (memory : Memory) (side : OrderSide) (address : Address) : Nat :=
  match memory.lookup address with
  | some order => if order.side = side then order.volume.toNat else 0
  | none => 0

private theorem volumeOfSide_eq (holds : LevelHolds memory book place level) {fuel : Nat} (enough : (addresses book).length ≤ fuel)
    (volume : Volume) : PriceLevel.volumeOfSide memory side fuel level.head volume =
      some (volume + UInt64.ofNat ((addresses book).map (volumeAt memory side)).sum) := by
  rw [holds.linked.head]
  refine holds.linked.threaded.walk (motive := fun start nodes => ∀ fuel volume, nodes.length ≤ fuel →
    PriceLevel.volumeOfSide memory side fuel start volume =
      some (volume + UInt64.ofNat (nodes.map (volumeAt memory side)).sum)) ?_ ?_ fuel volume enough
  · intro fuel volume _
    have nothing : some volume = some (volume + UInt64.ofNat 0) := congrArg some (UInt64.add_zero volume).symm
    cases fuel with
    | zero => exact nothing
    | succ fuel => exact nothing
  · intro node rest member follows behind fuel volume enough
    obtain ⟨order, found⟩ := holds.found member
    cases fuel with
    | zero => cases enough
    | succ fuel =>
      have later := behind fuel (if order.side = side then volume + order.volume else volume) (Nat.le_of_succ_le_succ enough)
      rw [← follows, nextOf_eq found] at later
      simp only [PriceLevel.volumeOfSide, found, Option.bind_eq_bind, Option.bind_some, later, map_cons, sum_cons, volumeAt]
      by_cases same : order.side = side
      · rw [if_pos same, if_pos same, UInt64.ofNat_add, UInt64.ofNat_toNat, UInt64.add_assoc]
      · rw [if_neg same, if_neg same, Nat.zero_add]

private theorem sum_volumeAt (stored : ∀ held ∈ book, Stored memory place held) :
    ((addresses book).map (volumeAt memory side)).sum = tally (ofSide side book) := by
  induction book with
  | nil => rfl
  | cons held rest ih =>
    obtain ⟨order, found, here, -⟩ := stored held mem_cons_self
    have more := ih fun other inside => stored other (mem_cons_of_mem held inside)
    have same : held.side = order.side ∧ held.volume = order.volume := by
      rw [← here]
      exact ⟨rfl, rfl⟩
    have first : volumeAt memory side held.address = if held.side = side then held.volume.toNat else 0 := by
      rw [volumeAt, found, same.1, same.2]
    have split : (addresses (held :: rest)).map (volumeAt memory side) =
        volumeAt memory side held.address :: (addresses rest).map (volumeAt memory side) := rfl
    rw [split, sum_cons, more, first, ofSide_cons]

/-- A level has no more orders than exist. -/
theorem addresses_le_card (holds : LevelHolds memory book place level) : (addresses book).length ≤ memory.keys.card := by
  rw [← toFinset_card_of_nodup holds.linked.distinct]
  apply Finset.card_le_card
  intro address member
  obtain ⟨order, found⟩ := holds.found (mem_toFinset.mp member)
  exact Finmap.mem_keys.mpr (Finmap.mem_of_lookup_eq_some found)

private theorem getVolumeBySide_eq (holds : LevelHolds memory book place level) (side : OrderSide) :
    level.getVolumeBySide memory side = some (UInt64.ofNat (tally (ofSide side book))) := by
  rw [PriceLevel.getVolumeBySide, volumeOfSide_eq holds (addresses_le_card holds), sum_volumeAt holds.stored, UInt64.zero_add]

/-- The loop stops at the level that has as many levels of the side before it as
the depth says. -/
theorem levelAtDepth_eq (holds : Holds memory ladder book) (side : OrderSide) {places : List LevelAddress}
    (inside : ∀ place ∈ places, place < ladder.levels.length) {count depth : Nat} (ahead : count ≤ depth) :
    ladder.levelAtDepth memory side depth places count =
      some (((places.filter (occupied ladder book side))[depth - count]?).bind fun place => ladder.levels[place]?) := by
  induction places generalizing count with
  | nil => rfl
  | cons place rest ih =>
    obtain ⟨level, there⟩ : ∃ level, ladder.levels[place]? = some level := ⟨_, getElem?_eq_getElem (inside place mem_cons_self)⟩
    have later : ∀ other ∈ rest, other < ladder.levels.length := fun other member => inside other (mem_cons_of_mem _ member)
    simp only [PriceLadder.levelAtDepth, there, hasOrdersOfSide_eq holds there, Option.bind_eq_bind, Option.bind_some]
    cases here : occupied ladder book side place with
    | true =>
      rw [if_pos rfl, filter_cons_of_pos here]
      by_cases reached : count = depth
      · rw [if_pos reached, reached, Nat.sub_self, getElem?_cons_zero, Option.bind_some, there]
        rfl
      · have more : depth - count = depth - (count + 1) + 1 := by omega
        rw [if_neg reached, ih later (by omega), more, getElem?_cons_succ]
    | false =>
      rw [if_neg Bool.false_ne_true, filter_cons_of_neg (by simp [here])]
      exact ih later ahead

def tickAt (ladder : PriceLadder) (place : Nat) : Price := ladder.levels[place]?.elim 0 PriceLevel.priceTick

theorem tickAt_toNat (holds : Holds memory ladder book) {place : Nat} (inside : place < ladder.levels.length) :
    (tickAt ladder place).toNat = ladder.minPriceTick.toNat + place := by
  have there := getElem?_eq_getElem inside
  rw [tickAt, there]
  exact holds.shape.ticks place _ there

private theorem volume_eq (holds : Holds memory ladder book) (side : OrderSide) {place : Nat} (inside : place < ladder.levels.length) :
    PriceLadder.volumeOn memory side ladder.levels[place]? =
      some (UInt64.ofNat (tally (ofSide side (atTick book (tickAt ladder place))))) := by
  have there := getElem?_eq_getElem inside
  rw [there, tickAt, there]
  exact getVolumeBySide_eq (holds.levels place _ there) side

/-- A side from its best tick on: every tick at which it rests once, and at each
depth the tick there with the volume that rests at it. -/
def Depth (book : Book) (side : OrderSide) (better : Price → Price → Prop) (nothing : Price) (priceAt : Nat → Option Price)
    (volumeAt : Nat → Option Volume) : Prop :=
  ∃ ticks : List Price, ticks.Pairwise better ∧ (∀ tick, tick ∈ ticks ↔ ∃ held ∈ book, held.side = side ∧ held.priceTick = tick) ∧
    ∀ depth, priceAt depth = some (ticks[depth]?.getD nothing) ∧
      volumeAt depth = some (ticks[depth]?.elim 0 fun tick => UInt64.ofNat (tally (ofSide side (atTick book tick))))

theorem depth_of_places (holds : Holds memory ladder book) (side : OrderSide) {places : List Nat} {R : Nat → Nat → Prop}
    {better : Price → Price → Prop} (nothing : Price) (every : ∀ place, place ∈ places ↔ place < ladder.levels.length)
    (sorted : places.Pairwise R)
    (further : ∀ first second : Nat, ∀ tick other : Price, R first second → tick.toNat = ladder.minPriceTick.toNat + first →
      other.toNat = ladder.minPriceTick.toNat + second → better tick other) :
    Depth book side better nothing
      (fun depth => (ladder.levelAtDepth memory side depth places 0).bind fun level => some (level.elim nothing PriceLevel.priceTick))
      (fun depth => (ladder.levelAtDepth memory side depth places 0).bind (PriceLadder.volumeOn memory side)) := by
  have inside : ∀ place ∈ places.filter (occupied ladder book side), place < ladder.levels.length := fun place member =>
    (every place).mp (mem_of_mem_filter member)
  refine ⟨(places.filter (occupied ladder book side)).map (tickAt ladder), ?_, fun tick => ?_, fun depth => ?_⟩
  · refine pairwise_map.mpr ((sorted.filter _).imp_of_mem fun {first second} here there ordered => ?_)
    exact further first second _ _ ordered (tickAt_toNat holds (inside first here)) (tickAt_toNat holds (inside second there))
  · constructor
    · intro member
      obtain ⟨place, present, rfl⟩ := mem_map.mp member
      obtain ⟨held, rests, this, tick⟩ := occupied_iff.mp (mem_filter.mp present).2
      exact ⟨held, rests, this, UInt64.toNat_inj.mp (tick.trans (tickAt_toNat holds (inside place present)).symm)⟩
    · rintro ⟨held, rests, this, rfl⟩
      obtain ⟨lower, upper⟩ := holds.inside held rests
      have bounded := holds.shape.bounds held.priceTick lower upper
      have above := UInt64.le_iff_toNat_le.mp lower
      have place : held.priceTick.toNat - ladder.minPriceTick.toNat < ladder.levels.length := by omega
      refine mem_map.mpr ⟨_, mem_filter.mpr ⟨(every _).mpr place, ?_⟩, ?_⟩
      · exact occupied_iff.mpr ⟨held, rests, this, (Nat.add_sub_cancel' above).symm⟩
      · apply UInt64.toNat_inj.mp
        rw [tickAt_toNat holds place]
        exact Nat.add_sub_cancel' above
  · simp only [levelAtDepth_eq holds side (fun place => (every place).mp) (Nat.zero_le depth), Nat.sub_zero, getElem?_map,
      Option.bind_some]
    cases found : (places.filter (occupied ladder book side))[depth]? with
    | none => exact ⟨rfl, rfl⟩
    | some place =>
      have below := inside place (mem_of_getElem? found)
      refine ⟨?_, volume_eq holds side below⟩
      rw [Option.bind_some, Option.map_some, Option.getD_some, tickAt, getElem?_eq_getElem below]
      rfl

theorem bestLevel_eq_levelAtDepth (holds : Holds memory ladder book) (side : OrderSide) {places : List LevelAddress}
    (inside : ∀ place ∈ places, place < ladder.levels.length) :
    ladder.bestLevel memory side places = ladder.levelAtDepth memory side 0 places 0 := by
  rw [bestLevel_eq holds side inside, levelAtDepth_eq holds side inside (Nat.le_refl 0), ← head?_filter, head?_eq_getElem?]

theorem bid_places (holds : Holds memory ladder book) : (∀ place, place ∈ ladder.bidLevels ↔ place < ladder.levels.length) ∧
    ladder.bidLevels.Pairwise fun first second => second < first := by
  rw [holds.shape.bids]
  exact ⟨fun place => by rw [mem_reverse, mem_range], pairwise_reverse.mpr pairwise_lt_range⟩

theorem ask_places (holds : Holds memory ladder book) : (∀ place, place ∈ ladder.askLevels ↔ place < ladder.levels.length) ∧
    ladder.askLevels.Pairwise fun first second => first < second := by
  rw [holds.shape.asks]
  exact ⟨fun place => mem_range, pairwise_lt_range⟩

theorem getOrderCount_eq (holds : Holds memory ladder book) : ladder.getOrderCount = book.length := by
  have keys : ladder.orderIndex.keys = (references book).keys.toFinset := by
    ext id
    rw [holds.index, Finmap.mem_keys, FiniteMap.mem_toFinmap, mem_toFinset]
  rw [PriceLadder.getOrderCount, keys, toFinset_card_of_nodup holds.unique]
  simp [references, List.keys]

/-- What the getters show together. -/
structure ShowsDepth (state : State) : Prop where
  bids : Depth state.resting .buy (· > ·) 0 (state.ladder.getBidPriceAtDepth state.memory) (state.ladder.getBidVolumeAtDepth state.memory)
  asks : Depth state.resting .sell (· < ·) 18446744073709551615 (state.ladder.getAskPriceAtDepth state.memory)
    (state.ladder.getAskVolumeAtDepth state.memory)
  bestBid : state.ladder.getBestBid state.memory = state.ladder.getBidPriceAtDepth state.memory 0
  bestAsk : state.ladder.getBestAsk state.memory = state.ladder.getAskPriceAtDepth state.memory 0
  bestBidVolume : state.ladder.getBestBidVolume state.memory = state.ladder.getBidVolumeAtDepth state.memory 0
  bestAskVolume : state.ladder.getBestAskVolume state.memory = state.ladder.getAskVolumeAtDepth state.memory 0
  count : state.ladder.getOrderCount = state.resting.length
  empty : state.ladder.isEmpty = state.resting.isEmpty

private theorem holds_showsDepth {state : State} (holds : Holds state.memory state.ladder state.resting) : ShowsDepth state where
  bids := by
    obtain ⟨every, sorted⟩ := bid_places holds
    have higher : ∀ first second : Nat, ∀ tick other : Price, second < first →
        tick.toNat = state.ladder.minPriceTick.toNat + first →
        other.toNat = state.ladder.minPriceTick.toNat + second → tick > other := by
      intro first second tick other below here there
      exact UInt64.lt_iff_toNat_lt.mpr (by omega)
    exact depth_of_places holds .buy 0 every sorted higher
  asks := by
    obtain ⟨every, sorted⟩ := ask_places holds
    have lower : ∀ first second : Nat, ∀ tick other : Price, first < second →
        tick.toNat = state.ladder.minPriceTick.toNat + first →
        other.toNat = state.ladder.minPriceTick.toNat + second → tick < other := by
      intro first second tick other above here there
      exact UInt64.lt_iff_toNat_lt.mpr (by omega)
    exact depth_of_places holds .sell 18446744073709551615 every sorted lower
  bestBid := by
    have best := bestLevel_eq_levelAtDepth holds .buy fun place => ((bid_places holds).1 place).mp
    rw [PriceLadder.getBestBid, best]
    rfl
  bestAsk := by
    have best := bestLevel_eq_levelAtDepth holds .sell fun place => ((ask_places holds).1 place).mp
    rw [PriceLadder.getBestAsk, best]
    rfl
  bestBidVolume := by
    have best := bestLevel_eq_levelAtDepth holds .buy fun place => ((bid_places holds).1 place).mp
    rw [PriceLadder.getBestBidVolume, best]
    rfl
  bestAskVolume := by
    have best := bestLevel_eq_levelAtDepth holds .sell fun place => ((ask_places holds).1 place).mp
    rw [PriceLadder.getBestAskVolume, best]
    rfl
  count := getOrderCount_eq holds
  empty := by
    rw [PriceLadder.isEmpty, getOrderCount_eq holds]
    cases state.resting with
    | nil => rfl
    | cons held rest => rfl

/-- After any allowed calls on a new ladder: at each depth the price getters show the
ticks at which the side rests, best first and each once, the volume getters what
rests there (mod 2^64), the best level is the one at depth zero, and the ladder
counts the resting orders. -/
theorem ladder_showsDepth {low high : Price} (built : PriceLadder.new low high = some ladder) (memory : Memory) {calls : List Call}
    (allowed : Runs.AtEveryStepM step Allowed ⟨memory, ladder, []⟩ calls) :
    ∃ state, calls.foldlM step ⟨memory, ladder, []⟩ = some state ∧ ShowsDepth state := by
  have progress : ∀ (state : State) (call : Call), Holds state.memory state.ladder state.resting → Allowed state call →
      ∃ next, step state call = some next ∧ Holds next.memory next.ladder next.resting := fun _ _ holds allowed => step_holds holds allowed
  obtain ⟨state, reached, holds⟩ := Runs.guardedM_succeeds progress allowed (new_holds built memory)
  exact ⟨state, reached, holds_showsDepth holds⟩

/-- Two ticks of bids, one of which is shared with the other side, and a volume that
has changed. -/
theorem ladder_showsDepth_shared :
    let calls : List Call := [.create 1 { orderId := 1, priceTick := 102, volume := 5 },
      .create 2 { orderId := 2, priceTick := 101, volume := 7 }, .create 3 { orderId := 3, priceTick := 101, volume := 2, side := .sell },
      .addOrder 1, .addOrder 2, .addOrder 3, .modifyOrderVolume 2 9]
    ∃ state, calls.foldlM step ⟨∅, ⟨101, 103, 3, levelsFrom 101 3, [2, 1, 0], [0, 1, 2], ∅⟩, []⟩ = some state ∧ ShowsDepth state := by
  intro calls
  have built : PriceLadder.new 101 103 = some ⟨101, 103, 3, levelsFrom 101 3, [2, 1, 0], [0, 1, 2], ∅⟩ := rfl
  exact ladder_showsDepth built ∅ (by decide)

end FinanceTech.Proofs.LadderDepth
