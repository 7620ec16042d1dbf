import FinanceTech.Proofs.LadderBook

/-! What a ladder shows after any run of allowed calls, in terms of the links
themselves and of the orders that rest. -/

namespace FinanceTech.Proofs.LadderSoundness
open List Library LinkedList PriceLevelStorage LadderConstruction LadderLevels LadderBook

/-- The orders of a level are linked in both directions, in the order of their
arrival and without a cycle, and lead back to the level. -/
structure LevelSound (memory : Memory) (book : Book) (place : LevelAddress) (level : PriceLevel) : Prop where
  headPrev : ∀ order, level.head = some order → prevOf memory order = none
  tailNext : ∀ order, level.tail = some order → nextOf memory order = none
  inverse : ∀ first ∈ addresses book, ∀ second ∈ addresses book, nextOf memory first = some second ↔ prevOf memory second = some first
  forwards : ∀ count, follow (nextOf memory) count level.head = (addresses book)[count]?
  backwards : ∀ count, follow (prevOf memory) count level.tail = (addresses book).reverse[count]?
  acyclic : (addresses book).Nodup
  stored : ∀ held ∈ book, Stored memory place held
  total : level.totalVolume.toNat = tally book % 2 ^ 64

/-- The best tick at which an order of the side rests, or `nothing`. -/
def Shows (book : Book) (side : OrderSide) (worse : Price → Price → Prop) (nothing price : Price) : Prop :=
  (∃ held ∈ book, held.side = side ∧ held.priceTick = price ∧ ∀ other ∈ book, other.side = side → worse other.priceTick price) ∨
    (∀ held ∈ book, held.side ≠ side) ∧ price = nothing

structure WellFormed (state : State) : Prop where
  levels : ∀ place level, state.ladder.levels[place]? = some level →
    LevelSound state.memory (atTick state.resting level.priceTick) place level
  placed : ∀ held ∈ state.resting, ∃ place level, state.ladder.getLevel held.priceTick = some place ∧
    state.ladder.levels[place]? = some level ∧ level.priceTick = held.priceTick
  index : ∀ id address, state.ladder.findOrder id = some address ↔ ∃ held ∈ state.resting, held.orderId = id ∧ held.address = address
  bid : ∃ price, state.ladder.getBestBid state.memory = some price ∧ Shows state.resting .buy (· ≤ ·) 0 price
  ask : ∃ price, state.ladder.getBestAsk state.memory = some price ∧
    Shows state.resting .sell (· ≥ ·) 18446744073709551615 price

variable {memory : Memory} {ladder : PriceLadder} {book : Book} {place : LevelAddress} {level : PriceLevel} {low high : Price}

private theorem level_sound (holds : LevelHolds memory book place level) : LevelSound memory book place level where
  headPrev _ := holds.linked.head_prev
  tailNext _ := holds.linked.tail_next
  inverse _ member _ present := holds.linked.threaded.inverse member present
  forwards := holds.linked.follow_eq
  backwards := holds.linked.reverse.follow_eq
  acyclic := holds.linked.distinct
  stored := holds.stored
  total := by rw [holds.total, UInt64.toNat_ofNat']

def occupied (ladder : PriceLadder) (book : Book) (side : OrderSide) (place : Nat) : Bool :=
  book.any fun held => held.side = side ∧ held.priceTick.toNat = ladder.minPriceTick.toNat + place

theorem hasOrdersOfSide_eq (holds : Holds memory ladder book) (there : ladder.levels[place]? = some level) (side : OrderSide) :
    level.hasOrdersOfSide memory side = some (occupied ladder book side place) := by
  rw [(holds.levels place level there).hasOrdersOfSide_eq, occupied, atTick, any_filter]
  congr 2
  funext held
  rw [← holds.shape.ticks place level there, Bool.eq_iff_iff]
  simp [UInt64.toNat_inj, and_comm]

theorem bestLevel_eq (holds : Holds memory ladder book) (side : OrderSide) {places : List LevelAddress}
    (inside : ∀ place ∈ places, place < ladder.levels.length) :
    ladder.bestLevel memory side places = some ((places.find? (occupied ladder book side)).bind fun place => ladder.levels[place]?) := by
  induction places with
  | nil => rfl
  | cons place rest ih =>
    obtain ⟨level, there⟩ : ∃ level, ladder.levels[place]? = some level := ⟨_, getElem?_eq_getElem (inside place mem_cons_self)⟩
    have more := ih fun other member => inside other (mem_cons_of_mem _ member)
    simp only [PriceLadder.bestLevel, there, hasOrdersOfSide_eq holds there, Option.bind_eq_bind, Option.bind_some]
    cases here : occupied ladder book side place with
    | true =>
      rw [if_pos rfl, find?_cons_of_pos here]
      exact congrArg some there.symm
    | false =>
      rw [if_neg Bool.false_ne_true, find?_cons_of_neg (by simp [here])]
      exact more

private theorem find?_first {A : Type} {R : A → A → Prop} {p : A → Bool} {items : List A} {item other : A} (sorted : items.Pairwise R)
    (found : items.find? p = some item) (member : other ∈ items) (like : p other = true) : other = item ∨ R item other := by
  obtain ⟨-, front, back, rfl, passed⟩ := find?_eq_some_iff_append.mp found
  rcases mem_append.mp member with ahead | further
  · exact absurd like (by simpa using passed other ahead)
  · rcases mem_cons.mp further with same | behind
    · exact Or.inl same
    · exact Or.inr ((pairwise_cons.mp (pairwise_append.mp sorted).2.1).1 other behind)

theorem occupied_iff {side : OrderSide} : occupied ladder book side place = true ↔
    ∃ held ∈ book, held.side = side ∧ held.priceTick.toNat = ladder.minPriceTick.toNat + place := by
  rw [occupied, any_eq_true]
  exact exists_congr fun held => and_congr_right fun _ => decide_eq_true_iff

theorem bestLevel_shows (holds : Holds memory ladder book) (side : OrderSide) {places : List Nat} {R : Nat → Nat → Prop}
    (worse : Price → Price → Prop) (nothing : Price) (every : ∀ place, place ∈ places ↔ place < ladder.levels.length)
    (sorted : places.Pairwise R) (same : ∀ tick, worse tick tick)
    (further : ∀ first second : Nat, ∀ tick other : Price, R first second → tick.toNat = ladder.minPriceTick.toNat + first →
      other.toNat = ladder.minPriceTick.toNat + second → worse other tick) :
    ∃ found, ladder.bestLevel memory side places = some found ∧ Shows book side worse nothing (found.elim nothing PriceLevel.priceTick) := by
  have placed : ∀ held ∈ book, ∃ place : Nat, place ∈ places ∧ held.priceTick.toNat = ladder.minPriceTick.toNat + place := by
    intro held member
    obtain ⟨lower, upper⟩ := holds.inside held member
    have bounded := holds.shape.bounds held.priceTick lower upper
    have lower := UInt64.le_iff_toNat_le.mp lower
    exact ⟨_, (every (held.priceTick.toNat - ladder.minPriceTick.toNat)).mpr (by omega), (Nat.add_sub_cancel' lower).symm⟩
  refine ⟨_, bestLevel_eq holds side fun place => (every place).mp, ?_⟩
  cases found : places.find? (occupied ladder book side) with
  | none =>
    refine Or.inr ⟨fun held member this => ?_, rfl⟩
    obtain ⟨place, inside, tick⟩ := placed held member
    have free := find?_eq_none.mp found place inside
    exact free (occupied_iff.mpr ⟨held, member, this, tick⟩)
  | some place =>
    obtain ⟨held, member, this, tick⟩ := occupied_iff.mp (find?_some found)
    obtain ⟨level, there⟩ : ∃ level, ladder.levels[place]? = some level :=
      ⟨_, getElem?_eq_getElem ((every place).mp (mem_of_find?_eq_some found))⟩
    have best : held.priceTick = level.priceTick := UInt64.toNat_inj.mp (tick.trans (holds.shape.ticks place level there).symm)
    rw [Option.bind_some, there]
    refine Or.inl ⟨held, member, this, best, fun other present alike => ?_⟩
    obtain ⟨elsewhere, inside, distant⟩ := placed other present
    rcases find?_first sorted found inside (occupied_iff.mpr ⟨other, present, alike, distant⟩) with rfl | behind
    · have equal : other.priceTick = level.priceTick := UInt64.toNat_inj.mp (distant.trans (holds.shape.ticks _ level there).symm)
      exact equal ▸ same _
    · exact further place elsewhere _ _ behind (holds.shape.ticks place level there) distant

private theorem getBestBid_shows (holds : Holds memory ladder book) :
    ∃ price, ladder.getBestBid memory = some price ∧ Shows book .buy (· ≤ ·) 0 price := by
  have sorted : ladder.bidLevels.Pairwise fun first second => second < first := by
    rw [holds.shape.bids]
    exact pairwise_reverse.mpr pairwise_lt_range
  have every : ∀ place, place ∈ ladder.bidLevels ↔ place < ladder.levels.length := by
    intro place
    rw [holds.shape.bids, mem_reverse, mem_range]
  have lower : ∀ first second : Nat, ∀ tick other : Price, second < first → tick.toNat = ladder.minPriceTick.toNat + first →
      other.toNat = ladder.minPriceTick.toNat + second → other ≤ tick := by
    intro first second tick other behind here there
    exact UInt64.le_iff_toNat_le.mpr (by omega)
  obtain ⟨found, best, shows⟩ := bestLevel_shows holds .buy (· ≤ ·) 0 every sorted (fun _ => UInt64.le_refl _) lower
  refine ⟨_, ?_, shows⟩
  rw [PriceLadder.getBestBid, best]
  rfl

private theorem getBestAsk_shows (holds : Holds memory ladder book) :
    ∃ price, ladder.getBestAsk memory = some price ∧ Shows book .sell (· ≥ ·) 18446744073709551615 price := by
  have sorted : ladder.askLevels.Pairwise fun first second => first < second := by
    rw [holds.shape.asks]
    exact pairwise_lt_range
  have every : ∀ place, place ∈ ladder.askLevels ↔ place < ladder.levels.length := by
    intro place
    rw [holds.shape.asks, mem_range]
  have higher : ∀ first second : Nat, ∀ tick other : Price, first < second → tick.toNat = ladder.minPriceTick.toNat + first →
      other.toNat = ladder.minPriceTick.toNat + second → other ≥ tick := by
    intro first second tick other behind here there
    exact UInt64.le_iff_toNat_le.mpr (by omega)
  obtain ⟨found, best, shows⟩ := bestLevel_shows holds .sell (· ≥ ·) 18446744073709551615 every sorted (fun _ => UInt64.le_refl _) higher
  refine ⟨_, ?_, shows⟩
  rw [PriceLadder.getBestAsk, best]
  rfl

private theorem holds_wellFormed {state : State} (holds : Holds state.memory state.ladder state.resting) : WellFormed state where
  levels place level there := level_sound (holds.levels place level there)
  placed held member := by
    obtain ⟨lower, upper⟩ := holds.inside held member
    exact holds.shape.getLevel_eq lower upper
  index id address := by
    rw [PriceLadder.findOrder, holds.index, FiniteMap.lookup_toFinmap_eq_some holds.unique, references, mem_map]
    refine exists_congr fun held => and_congr_right fun _ => ?_
    rw [LadderLevels.Resting.reference, Sigma.mk.injEq]
    exact and_congr_right fun _ => heq_iff_eq
  bid := getBestBid_shows holds
  ask := getBestAsk_shows holds

theorem new_holds (built : PriceLadder.new low high = some ladder) (memory : Memory) : Holds memory ladder [] := by
  obtain ⟨shape, vacant⟩ := new_shape built
  refine ⟨shape, fun place level there => ?_, fun _ member => absurd member not_mem_nil, nodup_nil, nodupKeys_nil, vacant.index⟩
  obtain ⟨total, head, tail⟩ := vacant.levels level (mem_of_getElem? there)
  refine ⟨?_, fun _ member => absurd member not_mem_nil, total⟩
  rw [head, tail]
  exact Linked.empty

/-- After any allowed calls on a new ladder, every level is a well-formed list of
the resting orders of its tick with their total, the index leads to exactly the
resting orders, and the best bid and ask are theirs. -/
theorem ladder_wellFormed (built : PriceLadder.new low high = some ladder) (memory : Memory) {calls : List Call}
    (allowed : Runs.AtEveryStepM step Allowed ⟨memory, ladder, []⟩ calls) {first : List Call} (inside : first <+: calls) :
    ∃ state, first.foldlM step ⟨memory, ladder, []⟩ = some state ∧ WellFormed state := by
  have progress : ∀ (state : State) (call : Call), Holds state.memory state.ladder state.resting → Allowed state call →
      ∃ next, step state call = some next ∧ Holds next.memory next.ladder next.resting := fun _ _ holds allowed => step_holds holds allowed
  obtain ⟨state, reached, holds⟩ := Runs.guardedM_succeeds progress (allowed.of_prefix inside) (new_holds built memory)
  exact ⟨state, reached, holds_wellFormed holds⟩

/-- Two sides share a level, and orders leave its middle, its head and its tail. -/
theorem ladder_wellFormed_shared :
    let calls : List Call := [.create 1 { orderId := 1, priceTick := 101, volume := 5 },
      .create 2 { orderId := 2, priceTick := 101, volume := 7, side := .sell },
      .create 3 { orderId := 3, priceTick := 101, volume := 18446744073709551615 }, .create 4 { orderId := 4, priceTick := 102 },
      .addOrder 1, .addOrder 2, .addOrder 3, .addOrder 4, .modifyOrderVolume 1 6, .removeOrder 2, .removeOrder 1,
      .create 2 { orderId := 1, priceTick := 103, side := .sell }, .addOrder 2, .removeOrder 3]
    ∃ state, calls.foldlM step ⟨∅, ⟨101, 103, 3, levelsFrom 101 3, [2, 1, 0], [0, 1, 2], ∅⟩, []⟩ = some state ∧ WellFormed state := by
  intro calls
  have built : PriceLadder.new 101 103 = some ⟨101, 103, 3, levelsFrom 101 3, [2, 1, 0], [0, 1, 2], ∅⟩ := rfl
  exact ladder_wellFormed built ∅ (by decide) (prefix_refl calls)

end FinanceTech.Proofs.LadderSoundness
