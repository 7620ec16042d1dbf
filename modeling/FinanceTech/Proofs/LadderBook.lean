import FinanceTech.Library.FiniteMap
import FinanceTech.Library.Runs
import FinanceTech.Proofs.LadderConstruction
import FinanceTech.Proofs.LadderLevels

/-! The whole ladder over any run of calls. The levels hold the resting orders
of their ticks and nothing else, the index leads to every resting order, and the
best bid and ask are those of the resting orders. -/

namespace FinanceTech.Proofs.LadderBook
open List Library LinkedList PriceLevelStorage LadderConstruction LadderLevels

/-- The resting orders of one tick, as they arrived. -/
def atTick (book : Book) (tick : Price) : Book := book.filter fun held => held.priceTick = tick

structure State where
  memory : Memory
  ladder : PriceLadder
  resting : Book := []

/-- The caller fills an order that does not rest, or calls the ladder. -/
inductive Call where
  | create (address : Address) (order : Order)
  | addOrder (address : Address)
  | removeOrder (address : Address)
  | modifyOrderVolume (address : Address) (newVolume : Volume)
deriving DecidableEq, Repr

def record (state : State) : Call → Book
  | .create .. => state.resting
  | .addOrder address => state.resting ++ ((state.memory.lookup address).map (Resting.of address)).toList
  | .removeOrder address => state.resting.filter fun held => held.address ≠ address
  | .modifyOrderVolume address newVolume =>
    state.resting.map fun held => if held.address = address then { held with volume := newVolume } else held

def perform (memory : Memory) (ladder : PriceLadder) : Call → Option (PriceLadder × Memory)
  | .create address order => some (ladder, memory.insert address order)
  | .addOrder address => ladder.addOrder memory address
  | .removeOrder address => ladder.removeOrder memory address
  | .modifyOrderVolume address newVolume => ladder.modifyOrderVolume memory address newVolume

def step (state : State) (call : Call) : Option State := do
  let (ladder, memory) ← perform state.memory state.ladder call
  return ⟨memory, ladder, record state call⟩

/-- An order is added when it does not rest, with a tick of the ladder and an id
that no resting order has; only resting orders are removed and modified. -/
def Allowed (state : State) : Call → Prop
  | .create address _ => ∀ held ∈ state.resting, held.address ≠ address
  | .addOrder address => ∃ order ∈ state.memory.lookup address,
      (state.ladder.minPriceTick ≤ order.priceTick ∧ order.priceTick ≤ state.ladder.maxPriceTick) ∧
      ∀ held ∈ state.resting, held.address ≠ address ∧ held.orderId ≠ order.orderId
  | .removeOrder address => ∃ held ∈ state.resting, held.address = address
  | .modifyOrderVolume address _ => ∃ held ∈ state.resting, held.address = address

instance (state : State) : (call : Call) → Decidable (Allowed state call)
  | .create .. => inferInstanceAs (Decidable (∀ held ∈ state.resting, _))
  | .addOrder address => inferInstanceAs (Decidable (∃ order ∈ state.memory.lookup address, _))
  | .removeOrder _ => inferInstanceAs (Decidable (∃ held ∈ state.resting, _))
  | .modifyOrderVolume .. => inferInstanceAs (Decidable (∃ held ∈ state.resting, _))

/-- The invariant. -/
structure Holds (memory : Memory) (ladder : PriceLadder) (book : Book) : Prop where
  shape : Shape ladder
  levels : ∀ place level, ladder.levels[place]? = some level → LevelHolds memory (atTick book level.priceTick) place level
  inside : ∀ held ∈ book, ladder.minPriceTick ≤ held.priceTick ∧ held.priceTick ≤ ladder.maxPriceTick
  distinct : (addresses book).Nodup
  unique : (references book).NodupKeys
  index : ladder.orderIndex = (references book).toFinmap

/-- The invariant without the ids. -/
structure Rests (memory : Memory) (ladder : PriceLadder) (book : Book) : Prop where
  shape : Shape ladder
  levels : ∀ place level, ladder.levels[place]? = some level → LevelHolds memory (atTick book level.priceTick) place level
  inside : ∀ held ∈ book, ladder.minPriceTick ≤ held.priceTick ∧ held.priceTick ≤ ladder.maxPriceTick
  distinct : (addresses book).Nodup

variable {memory after : Memory} {ladder : PriceLadder} {book next front back : Book} {place : LevelAddress} {level : PriceLevel}
  {held : Resting} {address : Address} {order : Order} {tick : Price}

theorem Holds.rests (holds : Holds memory ladder book) : Rests memory ladder book :=
  ⟨holds.shape, holds.levels, holds.inside, holds.distinct⟩

theorem Rests.holds (rests : Rests memory ladder book) (unique : (references book).NodupKeys)
    (index : ladder.orderIndex = (references book).toFinmap) : Holds memory ladder book :=
  ⟨rests.shape, rests.levels, rests.inside, rests.distinct, unique, index⟩

/-- A call that works on one level, whose orders alone change in memory and in
the book, keeps everything else. -/
theorem Rests.replace (rests : Rests memory ladder book) (there : ladder.levels[place]? = some level) {changed : PriceLevel}
    (same : changed.priceTick = level.priceTick) (own : LevelHolds after (atTick next level.priceTick) place changed)
    (others : ∀ tick, tick ≠ level.priceTick → atTick next tick = atTick book tick)
    (frame : ∀ held ∈ book, held.priceTick ≠ level.priceTick → after.lookup held.address = memory.lookup held.address)
    (inside : ∀ held ∈ next, ladder.minPriceTick ≤ held.priceTick ∧ held.priceTick ≤ ladder.maxPriceTick)
    (distinct : (addresses next).Nodup) (orderIndex : Finmap fun _ : OrderId => Address) :
    Rests after { ladder with levels := ladder.levels.set place changed, orderIndex } next where
  shape := rests.shape.set there same _
  levels other another held := by
    rcases set_cases held with ⟨rfl, rfl⟩ | ⟨apart, elsewhere⟩
    · rw [same]
      exact own
    · have different : another.priceTick ≠ level.priceTick := fun tick => apart (rests.shape.same_tick there elsewhere tick)
      rw [others _ different]
      refine (rests.levels other another elsewhere).frame fun held member => ?_
      obtain ⟨present, tick⟩ := mem_filter.mp member
      exact frame held present (of_decide_eq_true tick ▸ different)
  inside := inside
  distinct := distinct

private theorem atTick_append (first second : Book) (tick : Price) : atTick (first ++ second) tick = atTick first tick ++ atTick second tick :=
  filter_append _ _

private theorem atTick_own (same : held.priceTick = tick) (book : Book) : atTick (held :: book) tick = held :: atTick book tick :=
  filter_cons_of_pos (decide_eq_true same)

private theorem atTick_other (different : held.priceTick ≠ tick) (book : Book) : atTick (held :: book) tick = atTick book tick :=
  filter_cons_of_neg (by simp [different])

theorem references_append (first second : Book) : references (first ++ second) = references first ++ references second := map_append

theorem Rests.elsewhere (rests : Rests memory ladder book) (member : held ∈ book) (different : held.priceTick ≠ tick) :
    held.address ∉ addresses (atTick book tick) := by
  intro inside
  obtain ⟨other, present, same⟩ := mem_addresses.mp inside
  obtain ⟨inBook, own⟩ := mem_filter.mp present
  have one : other = held := inj_on_of_nodup_map rests.distinct inBook member same
  exact different (one ▸ of_decide_eq_true own)

theorem Rests.create (rests : Rests memory ladder book) (fresh : ∀ held ∈ book, held.address ≠ address) (order : Order) :
    Rests (memory.insert address order) ladder book := by
  refine { rests with levels := fun place level there => ?_ }
  refine (rests.levels place level there).frame fun held member => ?_
  exact Finmap.lookup_insert_of_ne _ (fresh held (mem_of_mem_filter member))

/-- The index takes a new id in. -/
private theorem references_concat (unique : (references book).NodupKeys) (fresh : ∀ other ∈ book, other.orderId ≠ held.orderId) :
    held.orderId ∉ (references book).toFinmap ∧ (references (book ++ [held])).NodupKeys ∧
      (references book).toFinmap.insert held.orderId held.address = (references (book ++ [held])).toFinmap := by
  have absent : held.orderId ∉ (references book).keys := by
    intro member
    obtain ⟨entry, present, same⟩ := exists_of_mem_map member
    obtain ⟨other, inBook, rfl⟩ := mem_map.mp present
    exact fresh other inBook same
  have whole : (references (book ++ [held])).NodupKeys := by
    rw [references_append]
    refine nodupKeys_middle.mpr (nodupKeys_cons.mpr ?_)
    rw [map_nil, append_nil]
    exact ⟨absent, unique⟩
  refine ⟨FiniteMap.mem_toFinmap.not.mpr absent, whole, ?_⟩
  have inserted := @FiniteMap.insert_toFinmap_middle _ _ _ (references book) [] held.reference
  rw [append_nil] at inserted
  rw [references_append] at whole ⊢
  exact inserted whole

private theorem addresses_concat (distinct : (addresses book).Nodup) (fresh : ∀ other ∈ book, other.address ≠ held.address) :
    (addresses (book ++ [held])).Nodup := by
  have absent : held.address ∉ addresses book := by
    intro member
    obtain ⟨other, present, same⟩ := mem_addresses.mp member
    exact fresh other present same
  have whole := Nodup.concat absent distinct
  rw [concat_eq_append] at whole
  rwa [addresses_append]

/-- What `addOrder` does, whatever the ids. -/
theorem Rests.addOrder (rests : Rests memory ladder book) (found : memory.lookup address = some order)
    (lower : ladder.minPriceTick ≤ order.priceTick) (upper : order.priceTick ≤ ladder.maxPriceTick)
    (fresh : ∀ held ∈ book, held.address ≠ address) :
    ∃ changed after, ladder.addOrder memory address = some (changed, after) ∧ Rests after changed (book ++ [Resting.of address order]) ∧
      changed.orderIndex =
        if order.orderId ∈ ladder.orderIndex then ladder.orderIndex else ladder.orderIndex.insert order.orderId address := by
  obtain ⟨place, level, led, there, tick⟩ := rests.shape.getLevel_eq lower upper
  have outside : address ∉ addresses (atTick book level.priceTick) := by
    intro member
    obtain ⟨held, present, same⟩ := mem_addresses.mp member
    exact fresh held (mem_of_mem_filter present) same
  obtain ⟨changed, after, added, same, named, kept, frame⟩ := (rests.levels place level there).add found outside
  obtain ⟨stored, known, id⟩ := Option.map_eq_some_iff.mp named
  refine ⟨_, after, ?_, rests.replace there same ?_ ?_ ?_ ?_ (addresses_concat rests.distinct fresh) _, rfl⟩
  · simp only [PriceLadder.addOrder, found, led, there, added, known, id, Option.bind_eq_bind, Option.bind_some]
    rfl
  · rw [atTick_append, atTick_own tick.symm]
    exact kept
  · intro other different
    rw [atTick_append, atTick_other fun same => different (same.symm.trans tick.symm)]
    exact append_nil _
  · intro held member different
    exact frame _ (fresh held member) (rests.elsewhere member different)
  · intro held member
    rcases mem_append.mp member with before | last
    · exact rests.inside held before
    · rw [mem_singleton.mp last]
      exact ⟨lower, upper⟩

theorem filter_apart (distinct : (addresses (front ++ held :: back)).Nodup) :
    (front ++ held :: back).filter (fun other => other.address ≠ held.address) = front ++ back := by
  rw [filter_append, filter_cons_of_neg (by simp)]
  have ahead : front.filter (fun other => other.address ≠ held.address) = front :=
    filter_eq_self.mpr fun other member => decide_eq_true (apart distinct (mem_append_left _ member))
  have behind : back.filter (fun other => other.address ≠ held.address) = back :=
    filter_eq_self.mpr fun other member => decide_eq_true (apart distinct (mem_append_right _ member))
  rw [ahead, behind]

theorem map_apart (distinct : (addresses (front ++ held :: back)).Nodup) (volume : Volume) :
    (front ++ held :: back).map (fun other => if other.address = held.address then { other with volume } else other) =
      front ++ { held with volume } :: back := by
  have ahead : front.map (fun other => if other.address = held.address then { other with volume } else other) = front :=
    (map_congr_left fun other member => if_neg (apart distinct (mem_append_left _ member))).trans (map_id front)
  have behind : back.map (fun other => if other.address = held.address then { other with volume } else other) = back :=
    (map_congr_left fun other member => if_neg (apart distinct (mem_append_right _ member))).trans (map_id back)
  rw [map_append, map_cons, if_pos rfl, ahead, behind]

theorem Rests.found (rests : Rests memory ladder (front ++ held :: back)) :
    ∃ place level order, ladder.levels[place]? = some level ∧ level.priceTick = held.priceTick ∧
      memory.lookup held.address = some order ∧ Resting.of held.address order = held ∧ order.level = some place ∧
      LevelHolds memory (atTick front level.priceTick ++ held :: atTick back level.priceTick) place level := by
  obtain ⟨lower, upper⟩ := rests.inside held mem_append_cons_self
  obtain ⟨place, level, -, there, tick⟩ := rests.shape.getLevel_eq lower upper
  have own := rests.levels place level there
  rw [atTick_append, atTick_own tick.symm] at own
  obtain ⟨order, found, here, leads⟩ := own.stored held mem_append_cons_self
  exact ⟨place, level, order, there, tick, found, here, leads, own⟩

/-- What `removeOrder` does, whatever the ids. -/
theorem Rests.removeOrder (rests : Rests memory ladder (front ++ held :: back)) :
    ∃ changed after, ladder.removeOrder memory held.address = some (changed, after) ∧ Rests after changed (front ++ back) ∧
      changed.orderIndex = ladder.orderIndex.erase held.orderId := by
  obtain ⟨place, level, order, there, tick, found, here, leads, own⟩ := rests.found
  obtain ⟨changed, after, removed, same, named, kept, frame⟩ := own.remove
  obtain ⟨stored, known, id⟩ := Option.map_eq_some_iff.mp named
  have within : front ++ back <+ front ++ held :: back := (sublist_cons_self held back).append_left front
  refine ⟨_, after, ?_, rests.replace there same ?_ ?_ ?_ ?_ ?_ _, rfl⟩
  · simp only [PriceLadder.removeOrder, found, leads, there, removed, known, id, Option.bind_eq_bind, Option.bind_some]
    rfl
  · rw [atTick_append]
    exact kept
  · intro other different
    rw [atTick_append, atTick_append, atTick_other fun same => different (same.symm.trans tick.symm)]
  · intro other member different
    have outside := rests.elsewhere member different
    rw [atTick_append, atTick_own tick.symm] at outside
    exact frame _ outside
  · exact fun other member => rests.inside other (within.subset member)
  · exact rests.distinct.sublist (within.map _)

theorem Rests.modifyOrderVolume (rests : Rests memory ladder (front ++ held :: back)) (volume : Volume) :
    ∃ changed after, ladder.modifyOrderVolume memory held.address volume = some (changed, after) ∧
      Rests after changed (front ++ { held with volume } :: back) ∧ changed.orderIndex = ladder.orderIndex := by
  obtain ⟨place, level, order, there, tick, found, here, leads, own⟩ := rests.found
  have kept := own.resize found volume
  have same : addresses (front ++ { held with volume } :: back) = addresses (front ++ held :: back) := by
    rw [addresses_append, addresses_append]
    rfl
  have resized : Rests (memory.insert held.address { order with volume })
      { ladder with levels := ladder.levels.set place { level with totalVolume := level.totalVolume - order.volume + volume } }
      (front ++ { held with volume } :: back) := by
    refine rests.replace there ?_ ?_ ?_ ?_ ?_ (same ▸ rests.distinct) ladder.orderIndex
    · rfl
    · have here : atTick ({ held with volume } :: back) level.priceTick = { held with volume } :: atTick back level.priceTick :=
        @atTick_own { held with volume } _ tick.symm back
      rw [atTick_append, here]
      exact kept
    · intro other different
      have skipped : held.priceTick ≠ other := fun same => different (same.symm.trans tick.symm)
      have there : atTick ({ held with volume } :: back) other = atTick back other :=
        @atTick_other { held with volume } _ skipped back
      rw [atTick_append, atTick_append, atTick_other skipped, there]
    · intro other member different
      refine Finmap.lookup_insert_of_ne _ fun same => ?_
      have one : other = held := inj_on_of_nodup_map rests.distinct member mem_append_cons_self same
      exact different (one ▸ tick.symm)
    · intro other member
      rcases mem_append.mp member with ahead | further
      · exact rests.inside other (mem_append_left _ ahead)
      · rcases mem_cons.mp further with rfl | behind
        · exact rests.inside held mem_append_cons_self
        · exact rests.inside other (mem_append_right _ (mem_cons_of_mem _ behind))
  refine ⟨_, _, ?_, resized, rfl⟩
  simp only [PriceLadder.modifyOrderVolume, found, leads, there, modify_eq found, Option.bind_eq_bind, Option.bind_some]
  rfl

theorem Holds.addOrder (holds : Holds memory ladder book) (found : memory.lookup address = some order)
    (lower : ladder.minPriceTick ≤ order.priceTick) (upper : order.priceTick ≤ ladder.maxPriceTick)
    (fresh : ∀ held ∈ book, held.address ≠ address ∧ held.orderId ≠ order.orderId) :
    ∃ changed after, ladder.addOrder memory address = some (changed, after) ∧ Holds after changed (book ++ [Resting.of address order]) := by
  obtain ⟨unindexed, unique, index⟩ :=
    @references_concat book (Resting.of address order) holds.unique fun held member => (fresh held member).2
  have unindexed : order.orderId ∉ ladder.orderIndex := holds.index ▸ unindexed
  obtain ⟨changed, after, added, rests, indexed⟩ := holds.rests.addOrder found lower upper fun held member => (fresh held member).1
  rw [if_neg unindexed, holds.index] at indexed
  exact ⟨changed, after, added, rests.holds unique (indexed.trans index)⟩

theorem Holds.removeOrder (holds : Holds memory ladder (front ++ held :: back)) :
    ∃ changed after, ladder.removeOrder memory held.address = some (changed, after) ∧ Holds after changed (front ++ back) := by
  obtain ⟨changed, after, removed, rests, indexed⟩ := holds.rests.removeOrder
  have within : front ++ back <+ front ++ held :: back := (sublist_cons_self held back).append_left front
  have whole : references (front ++ held :: back) = references front ++ held.reference :: references back := references_append _ _
  have index : ladder.orderIndex.erase held.orderId = (references (front ++ back)).toFinmap := by
    have unique := holds.unique
    rw [whole] at unique
    rw [holds.index, whole, references_append]
    exact FiniteMap.erase_toFinmap_middle unique
  have unique : (references (front ++ back)).NodupKeys :=
    Nodup.sublist ((within.map Resting.reference).map Sigma.fst) holds.unique
  exact ⟨changed, after, removed, rests.holds unique (indexed.trans index)⟩

theorem Holds.modifyOrderVolume (holds : Holds memory ladder (front ++ held :: back)) (volume : Volume) :
    ∃ changed after, ladder.modifyOrderVolume memory held.address volume = some (changed, after) ∧
      Holds after changed (front ++ { held with volume } :: back) := by
  obtain ⟨changed, after, modified, rests, indexed⟩ := holds.rests.modifyOrderVolume volume
  have same : references (front ++ { held with volume } :: back) = references (front ++ held :: back) := by
    rw [references_append, references_append]
    rfl
  exact ⟨changed, after, modified, rests.holds (same ▸ holds.unique) (indexed.trans (same ▸ holds.index))⟩

theorem step_holds {state : State} (holds : Holds state.memory state.ladder state.resting) {call : Call} (allowed : Allowed state call) :
    ∃ next, step state call = some next ∧ Holds next.memory next.ladder next.resting := by
  cases call with
  | create address order => exact ⟨_, rfl, (holds.rests.create allowed order).holds holds.unique holds.index⟩
  | addOrder address =>
    obtain ⟨order, found, ⟨lower, upper⟩, fresh⟩ := allowed
    obtain ⟨changed, after, added, kept⟩ := holds.addOrder found lower upper fresh
    refine ⟨_, by rw [step, perform, added]; rfl, ?_⟩
    rw [record, Option.mem_def.mp found]
    exact kept
  | removeOrder address =>
    obtain ⟨held, member, rfl⟩ := allowed
    obtain ⟨front, back, whole⟩ := append_of_mem member
    rw [whole] at holds
    obtain ⟨changed, after, removed, kept⟩ := holds.removeOrder
    refine ⟨_, by rw [step, perform, removed]; rfl, ?_⟩
    rw [record, whole, filter_apart holds.distinct]
    exact kept
  | modifyOrderVolume address newVolume =>
    obtain ⟨held, member, rfl⟩ := allowed
    obtain ⟨front, back, whole⟩ := append_of_mem member
    rw [whole] at holds
    obtain ⟨changed, after, modified, kept⟩ := holds.modifyOrderVolume newVolume
    refine ⟨_, by rw [step, perform, modified]; rfl, ?_⟩
    rw [record, whole, map_apart holds.distinct]
    exact kept

end FinanceTech.Proofs.LadderBook
