import FinanceTech.Proofs.LadderSoundness

/-! The index of the ladder when ids are used again. An order that comes with
the id of another one is linked in but not indexed, and taking either of them
out takes the id of both. -/

namespace FinanceTech.Proofs.LadderIndex
open List Library LinkedList PriceLevelStorage LadderLevels LadderBook

def LinkedAs (memory : Memory) (ladder : PriceLadder) (id : OrderId) (address : Address) : Prop :=
  (∃ level ∈ ladder.levels, ∃ count, follow (nextOf memory) count level.head = some address) ∧
    (memory.lookup address).map Order.orderId = some id

/-- The index finds an id exactly when an order that is linked in has it, and it
leads to such an order. -/
structure Truthful (memory : Memory) (ladder : PriceLadder) : Prop where
  found : ∀ id, ladder.findOrder id ≠ none ↔ ∃ address, LinkedAs memory ladder id address
  linked : ∀ id address, ladder.findOrder id = some address → LinkedAs memory ladder id address

/-- An order is added when it does not rest, with a tick of the ladder and any
id; only resting orders are removed and modified. -/
def Permitted (state : State) : Call → Prop
  | .create address _ => ∀ held ∈ state.resting, held.address ≠ address
  | .addOrder address => ∃ order ∈ state.memory.lookup address,
      (state.ladder.minPriceTick ≤ order.priceTick ∧ order.priceTick ≤ state.ladder.maxPriceTick) ∧
      ∀ held ∈ state.resting, held.address ≠ address
  | .removeOrder address => ∃ held ∈ state.resting, held.address = address
  | .modifyOrderVolume address _ => ∃ held ∈ state.resting, held.address = address

instance (state : State) : (call : Call) → Decidable (Permitted state call)
  | .create .. => inferInstanceAs (Decidable (∀ held ∈ state.resting, _))
  | .addOrder address => inferInstanceAs (Decidable (∃ order ∈ state.memory.lookup address, _))
  | .removeOrder _ => inferInstanceAs (Decidable (∃ held ∈ state.resting, _))
  | .modifyOrderVolume .. => inferInstanceAs (Decidable (∃ held ∈ state.resting, _))

def Alone (state : State) : Call → Prop
  | .removeOrder address => ∀ held ∈ state.resting, held.address = address →
      ∀ other ∈ state.resting, other.orderId = held.orderId → other.address = address
  | _ => True

instance (state : State) : (call : Call) → Decidable (Alone state call)
  | .create .. => .isTrue trivial
  | .addOrder _ => .isTrue trivial
  | .removeOrder _ => inferInstanceAs (Decidable (∀ held ∈ state.resting, _))
  | .modifyOrderVolume .. => .isTrue trivial

structure Indexed (index : Finmap fun _ : OrderId => Address) (entries : List ((_ : OrderId) × Address)) : Prop where
  present : ∀ entry ∈ entries, entry.1 ∈ index
  sound : ∀ id address, index.lookup id = some address → ⟨id, address⟩ ∈ entries

section Index

variable {index : Finmap fun _ : OrderId => Address} {entries front back : List ((_ : OrderId) × Address)}
  {entry : (_ : OrderId) × Address}

theorem Indexed.emplace (indexed : Indexed index entries) (entry : (_ : OrderId) × Address) :
    Indexed (if entry.1 ∈ index then index else index.insert entry.1 entry.2) (entries ++ [entry]) := by
  split
  next known =>
    refine ⟨fun other member => ?_, fun id address found => mem_append_left _ (indexed.sound id address found)⟩
    rcases mem_append.mp member with before | last
    · exact indexed.present other before
    · exact mem_singleton.mp last ▸ known
  next fresh =>
    refine ⟨fun other member => ?_, fun id address found => ?_⟩
    · rcases mem_append.mp member with before | last
      · exact Finmap.mem_insert.mpr (Or.inr (indexed.present other before))
      · exact Finmap.mem_insert.mpr (Or.inl (congrArg Sigma.fst (mem_singleton.mp last)))
    · by_cases same : id = entry.1
      · subst same
        rw [Finmap.lookup_insert] at found
        cases found
        exact mem_append_right _ mem_cons_self
      · rw [Finmap.lookup_insert_of_ne _ same] at found
        exact mem_append_left _ (indexed.sound id address found)

private theorem Indexed.erase_iff (indexed : Indexed index (front ++ entry :: back)) :
    Indexed (index.erase entry.1) (front ++ back) ↔ ∀ other ∈ front ++ back, other.1 ≠ entry.1 := by
  constructor
  · intro still other member
    exact (Finmap.mem_erase.mp (still.present other member)).1
  · intro apart
    refine ⟨fun other member => ?_, fun id address found => ?_⟩
    · have within : other ∈ front ++ entry :: back := ((sublist_cons_self entry back).append_left front).subset member
      exact Finmap.mem_erase.mpr ⟨apart other member, indexed.present other within⟩
    · by_cases same : id = entry.1
      · rw [same, Finmap.lookup_erase] at found
        cases found
      · rw [Finmap.lookup_erase_ne same] at found
        rcases mem_append.mp (indexed.sound id address found) with ahead | further
        · exact mem_append_left _ ahead
        · rcases mem_cons.mp further with this | behind
          · exact absurd (congrArg Sigma.fst this) same
          · exact mem_append_right _ behind

end Index

variable {memory : Memory} {ladder : PriceLadder} {book : Book} {id : OrderId} {address : Address}

private theorem linkedAs_iff (rests : Rests memory ladder book) : LinkedAs memory ladder id address ↔ ⟨id, address⟩ ∈ references book := by
  constructor
  · rintro ⟨⟨level, member, count, led⟩, named⟩
    obtain ⟨place, there⟩ := mem_iff_getElem?.mp member
    have own := rests.levels place level there
    rw [own.linked.follow_eq] at led
    obtain ⟨held, resting, rfl⟩ := mem_addresses.mp (mem_of_getElem? led)
    obtain ⟨order, found, here, -⟩ := own.stored held resting
    rw [found] at named
    have same : held.orderId = id := (congrArg Resting.orderId here).symm.trans (Option.some.inj named)
    exact mem_map.mpr ⟨held, mem_of_mem_filter resting, Sigma.ext same HEq.rfl⟩
  · intro member
    obtain ⟨held, resting, same⟩ := mem_map.mp member
    cases same
    obtain ⟨front, back, rfl⟩ := append_of_mem resting
    obtain ⟨place, level, order, there, tick, found, here, -, own⟩ := rests.found
    have linked : held.address ∈ addresses (atTick front level.priceTick ++ held :: atTick back level.priceTick) :=
      mem_addresses.mpr ⟨held, mem_append_cons_self, rfl⟩
    obtain ⟨count, led⟩ := mem_iff_getElem?.mp linked
    refine ⟨⟨level, mem_of_getElem? there, count, (own.linked.follow_eq count).trans led⟩, ?_⟩
    rw [found, ← here]
    rfl

private theorem truthful_iff (rests : Rests memory ladder book) : Truthful memory ladder ↔ Indexed ladder.orderIndex (references book) := by
  constructor
  · intro truthful
    refine ⟨fun entry member => ?_, fun id address found => (linkedAs_iff rests).mp (truthful.linked id address found)⟩
    have known := (truthful.found entry.1).mpr ⟨entry.2, (linkedAs_iff rests).mpr member⟩
    exact Finmap.lookup_isSome.mp (Option.isSome_iff_ne_none.mpr known)
  · intro indexed
    have linked : ∀ id address, ladder.findOrder id = some address → LinkedAs memory ladder id address := fun id address found =>
      (linkedAs_iff rests).mpr (indexed.sound id address found)
    refine ⟨fun id => ⟨fun known => ?_, ?_⟩, linked⟩
    · obtain ⟨address, found⟩ := Option.ne_none_iff_exists'.mp known
      exact ⟨address, linked id address found⟩
    · rintro ⟨address, there⟩
      have known := indexed.present _ ((linkedAs_iff rests).mp there)
      exact Option.isSome_iff_ne_none.mp (Finmap.lookup_isSome.mpr known)

private theorem alone_iff {state : State} {front back : Book} {held : Resting} (whole : state.resting = front ++ held :: back)
    (distinct : (addresses (front ++ held :: back)).Nodup) :
    Alone state (.removeOrder held.address) ↔ ∀ other ∈ references front ++ references back, other.1 ≠ held.reference.1 := by
  rw [← references_append]
  constructor
  · intro alone other member same
    obtain ⟨another, resting, rfl⟩ := mem_map.mp member
    have within : another ∈ front ++ held :: back := ((sublist_cons_self held back).append_left front).subset resting
    have this := alone held (whole ▸ mem_append_cons_self) rfl another (whole ▸ within) same
    exact apart distinct resting this
  · intro others found member same other resting shared
    rw [whole] at member resting
    have one : found = held := inj_on_of_nodup_map distinct member mem_append_cons_self same
    subst one
    by_contra different
    have elsewhere : other ∈ front ++ back := by
      rcases mem_append.mp resting with ahead | further
      · exact mem_append_left _ ahead
      · rcases mem_cons.mp further with rfl | behind
        · exact absurd rfl different
        · exact mem_append_right _ behind
    exact others other.reference (mem_map.mpr ⟨other, elsewhere, rfl⟩) shared

/-- A permitted call returns; it keeps the index truthful unless it removes an
order whose id another one has. -/
private theorem step_truthful (state : State) (call : Call) (rests : Rests state.memory state.ladder state.resting)
    (permitted : Permitted state call) :
    ∃ next, step state call = some next ∧ Rests next.memory next.ladder next.resting ∧
      (Truthful state.memory state.ladder → (Truthful next.memory next.ladder ↔ Alone state call)) := by
  cases call with
  | create address order =>
    have kept := rests.create permitted order
    refine ⟨_, rfl, kept, fun truthful => iff_of_true ?_ trivial⟩
    exact (truthful_iff kept).mpr ((truthful_iff rests).mp truthful)
  | addOrder address =>
    obtain ⟨order, found, ⟨lower, upper⟩, fresh⟩ := permitted
    obtain ⟨changed, after, added, kept, index⟩ := rests.addOrder found lower upper fresh
    have resting : record state (.addOrder address) = state.resting ++ [Resting.of address order] := by
      rw [record, Option.mem_def.mp found]
      rfl
    refine ⟨_, by rw [step, perform, added]; rfl, resting ▸ kept, fun truthful => iff_of_true ?_ trivial⟩
    rw [truthful_iff kept, references_append, index]
    exact ((truthful_iff rests).mp truthful).emplace (Resting.of address order).reference
  | removeOrder address =>
    obtain ⟨held, member, rfl⟩ := permitted
    obtain ⟨front, back, whole⟩ := append_of_mem member
    rw [whole] at rests
    obtain ⟨changed, after, removed, kept, index⟩ := rests.removeOrder
    have resting : record state (.removeOrder held.address) = front ++ back := by rw [record, whole, filter_apart rests.distinct]
    refine ⟨_, by rw [step, perform, removed]; rfl, resting ▸ kept, fun truthful => ?_⟩
    rw [truthful_iff kept, references_append, index, alone_iff whole rests.distinct]
    have indexed := (truthful_iff rests).mp truthful
    rw [references_append] at indexed
    exact indexed.erase_iff
  | modifyOrderVolume address newVolume =>
    obtain ⟨held, member, rfl⟩ := permitted
    obtain ⟨front, back, whole⟩ := append_of_mem member
    rw [whole] at rests
    obtain ⟨changed, after, modified, kept, index⟩ := rests.modifyOrderVolume newVolume
    have resting : record state (.modifyOrderVolume held.address newVolume) = front ++ { held with volume := newVolume } :: back := by
      rw [record, whole, map_apart rests.distinct]
    refine ⟨_, by rw [step, perform, modified]; rfl, resting ▸ kept, fun truthful => iff_of_true ?_ trivial⟩
    have indexed := (truthful_iff rests).mp truthful
    rw [truthful_iff kept, index, references_append]
    rw [references_append] at indexed
    exact indexed

/-- Over any permitted calls on a new ladder the index is truthful in every state
exactly when no order is removed while another one with its id rests. -/
theorem index_truthful_iff {low high : Price} (built : PriceLadder.new low high = some ladder) (memory : Memory) {calls : List Call}
    (permitted : Runs.AtEveryStepM step Permitted ⟨memory, ladder, []⟩ calls) :
    (∀ before state, before <+: calls → before.foldlM step ⟨memory, ladder, []⟩ = some state →
      Truthful state.memory state.ladder) ↔ Runs.AtEveryStepM step Alone ⟨memory, ladder, []⟩ calls := by
  have start := (LadderSoundness.new_holds built memory).rests
  have initial : Truthful memory ladder := by
    rw [truthful_iff start, (LadderSoundness.new_holds built memory).index]
    exact ⟨fun _ member => absurd member not_mem_nil, fun _ _ found => nomatch found⟩
  exact Runs.guardedM_throughout_iff (fun state => Truthful state.memory state.ladder) step_truthful permitted start initial

/-- Two resting orders share an id, and an order whose id is its own leaves. -/
theorem index_truthful_iff_shared :
    let calls : List Call := [.create 1 { orderId := 1, priceTick := 101 }, .create 2 { orderId := 1, priceTick := 102 },
      .create 3 { orderId := 3, priceTick := 101 }, .addOrder 1, .addOrder 3, .addOrder 2, .removeOrder 3]
    let start : State := ⟨∅, ⟨101, 103, 3, LadderConstruction.levelsFrom 101 3, [2, 1, 0], [0, 1, 2], ∅⟩, []⟩
    (∀ before state, before <+: calls → before.foldlM step start = some state → Truthful state.memory state.ladder) ↔
      Runs.AtEveryStepM step Alone start calls := by
  intro calls start
  have built : PriceLadder.new 101 103 = some ⟨101, 103, 3, LadderConstruction.levelsFrom 101 3, [2, 1, 0], [0, 1, 2], ∅⟩ := rfl
  exact index_truthful_iff built ∅ (by decide)

/-- Of two resting orders with one id the second leaves, and the first one, which
is still linked in, cannot be found any more. -/
theorem shared_id_lost :
    let calls : List Call := [.create 1 { orderId := 1, priceTick := 101 }, .create 2 { orderId := 1, priceTick := 102 },
      .addOrder 1, .addOrder 2, .removeOrder 2]
    let start : State := ⟨∅, ⟨101, 103, 3, LadderConstruction.levelsFrom 101 3, [2, 1, 0], [0, 1, 2], ∅⟩, []⟩
    Runs.AtEveryStepM step Permitted start calls ∧
      ∃ state, calls.foldlM step start = some state ∧ LinkedAs state.memory state.ladder 1 1 ∧ state.ladder.findOrder 1 = none := by
  intro calls start
  have ended : (calls.foldlM step start).map (fun state => (state.ladder.levels[0]?.bind PriceLevel.head,
      (state.memory.lookup 1).map Order.orderId, state.ladder.findOrder 1)) = some (some 1, some 1, none) := by decide
  obtain ⟨state, reached, shown⟩ := Option.map_eq_some_iff.mp ended
  obtain ⟨led, named, lost⟩ : state.ladder.levels[0]?.bind PriceLevel.head = some 1 ∧
      (state.memory.lookup 1).map Order.orderId = some 1 ∧ state.ladder.findOrder 1 = none := by simpa using shown
  obtain ⟨level, there, head⟩ := Option.bind_eq_some_iff.mp led
  exact ⟨by decide, state, reached, ⟨⟨level, mem_of_getElem? there, 0, head⟩, named⟩, lost⟩

end FinanceTech.Proofs.LadderIndex
