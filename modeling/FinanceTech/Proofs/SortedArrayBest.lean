import FinanceTech.Library.Runs
import FinanceTech.Proofs.SortedArraySlots

/-! What the sorted array holds after any pushes: the best items of its order, as
long as no item is taken for a stale slot and, in a descending array, none goes
to the end because it is above the last one. -/

namespace FinanceTech.Proofs.SortedArrayBest
open List Library SortedMap MarketDepth StaticSortedArray SortedArraySlots

variable {Ty : Type} [LinearOrder Ty] [Inhabited Ty] {ordering : SortOrder} {array : SortedArray Ty ordering} {item : Ty}
  {capacity rest : Nat}

def pushItem (array : SortedArray Ty ordering) (item : Ty) : Option (SortedArray Ty ordering) := (array.push item).map Prod.fst

/-- Where the code searches, its sums of indices do not overflow. -/
def Searched (array : SortedArray Ty ordering) (item : Ty) : Prop := array.isAbove item = some false → Searchable array item

instance (array : SortedArray Ty ordering) (item : Ty) : Decidable (Searched array item) := inferInstanceAs (Decidable (_ → _))

/-- A descending array is given an item above its last one only when it is full
and has the item, and an array with room is not given the default item behind all
others, past the fast path. -/
structure Suits (array : SortedArray Ty ordering) (item : Ty) : Prop where
  above : array.isAbove item = some true → ordering = .ascending ∨ array.size = array.capacity ∧ item ∈ array.items
  behind : array.isAbove item = some false → array.size < array.capacity → (∀ held ∈ array.items, before ordering held item) →
    item ≠ default

instance (array : SortedArray Ty ordering) (item : Ty) : Decidable (Suits array item) :=
  decidable_of_iff ((array.isAbove item = some true → ordering = .ascending ∨ array.size = array.capacity ∧ item ∈ array.items) ∧
      (array.isAbove item = some false → array.size < array.capacity → (∀ held ∈ array.items, before ordering held item) →
        item ≠ default))
    ⟨fun both => ⟨both.1, both.2⟩, fun suits => ⟨suits.1, suits.2⟩⟩

/-- The items as the keys of a map without values. -/
def units (items : List Ty) : Entries Ty Unit := items.map fun item => ⟨item, ()⟩

omit [LinearOrder Ty] [Inhabited Ty] in
@[simp] theorem keys_units (items : List Ty) : (units items).keys = items := by
  rw [units, keys, map_map]
  exact map_id items

omit [Inhabited Ty] in
private theorem isAbove_or (live : List Ty) {stale : List Ty} (packed : Packed array live stale) (item : Ty) :
    array.isAbove item = some false ∨ array.isAbove item = some true ∧ ∃ front last, live = front ++ [last] ∧ item > last := by
  rcases eq_nil_or_concat' live with rfl | ⟨front, last, rfl⟩
  · exact Or.inl (packed.isAbove_nil item)
  · by_cases above : item > last
    · refine Or.inr ⟨?_, front, last, rfl, above⟩
      rw [packed.isAbove_concat, decide_eq_true above]
    · refine Or.inl ?_
      rw [packed.isAbove_concat, decide_eq_false above]

omit [Inhabited Ty] in
private theorem behind_of_above {front : List Ty} {last : Ty} (sorted : (front ++ [last]).Pairwise (before .ascending)) (greater : item > last) :
    ∀ held ∈ front ++ [last], before .ascending held item := by
  intro held member
  rcases mem_append.mp member with ahead | own
  · exact lt_trans ((pairwise_append.mp sorted).2.2 held ahead last mem_cons_self) greater
  · rw [mem_singleton.mp own]
    exact greater

omit [Inhabited Ty] in
private theorem keys_sorted (levels : Map Ty Unit (before ordering)) : levels.entries.keys.Pairwise (before ordering) :=
  pairwise_map.mpr levels.sorted

variable {levels : Map Ty Unit (before ordering)}

/-- A push puts a new item among the best ones. -/
def KeepsBest (array : SortedArray Ty ordering) (levels : Map Ty Unit (before ordering)) (item : Ty) : Prop :=
  ∃ next rest, pushItem array item = some next ∧
    Packed next ((levels.emplace item ()).best array.capacity).entries.keys (replicate rest default) ∧ next.capacity = array.capacity

omit [Inhabited Ty] in
theorem pushItem_eq {next : SortedArray Ty ordering} {result : Bool} (pushed : array.push item = some (next, result)) :
    pushItem array item = some next := by
  rw [pushItem, pushed]
  rfl

theorem push_known (packed : Packed array levels.entries.keys (replicate rest default)) {old : Unit} (found : levels.find? item = some old)
    (searched : Searched array item) (suits : Suits array item) : KeepsBest array levels item := by
  have room := packed.room
  rw [length_replicate] at room
  have fits : levels.entries.length ≤ array.capacity := by
    rw [keys, length_map] at room
    omega
  obtain ⟨front, back, whole, -, -, passed, later⟩ := Map.split_found found ()
  have live : levels.entries.keys = front.keys ++ item :: back.keys := by rw [whole, keys, map_append]; rfl
  have ahead : ∀ held ∈ front.keys, before ordering held item := forall_mem_map.mpr passed
  have behind : ∀ held ∈ item :: back.keys, ¬ before ordering held item :=
    forall_mem_cons.mpr ⟨irrefl item, forall_mem_map.mpr fun entry member => asymm (later entry member)⟩
  have unchanged : array.push item = some (array, false) → KeepsBest array levels item := by
    intro pushed
    refine ⟨array, rest, pushItem_eq pushed, ?_, rfl⟩
    rw [Map.emplace_found found, Map.best_all fits]
    exact packed
  apply unchanged
  rcases isAbove_or _ packed item with below | ⟨above, others, last, ends, greater⟩
  · rw [live] at packed
    have read : array.data[front.keys.length]? = some item := by
      rw [packed.data, append_assoc]
      exact Slots.getElem?_middle _ _ _
    exact Packed.push_same below (packed.findInsertIndex_eq (searched below) ahead behind) read
  · rcases suits.above above with rfl | ⟨full, -⟩
    · have sorted := keys_sorted levels
      rw [ends] at sorted
      have member : item ∈ others ++ [last] := by
        rw [← ends, live]
        exact mem_append_right _ mem_cons_self
      exact absurd (behind_of_above sorted greater item member) (irrefl item)
    · obtain rfl : rest = 0 := by
        rw [← packed.size] at room
        omega
      exact packed.push_above_full above

omit [Inhabited Ty] in
theorem best_fresh {front back : Entries Ty Unit} (absent : levels.find? item = none)
    (inserted : (levels.insertOrAssign item ()).entries = front ++ ⟨item, ()⟩ :: back) (count : Nat) :
    ((levels.emplace item ()).best count).entries.keys = (front.keys ++ item :: back.keys).take count := by
  rw [Map.emplace_fresh absent]
  change ((levels.insertOrAssign item ()).entries.take count).map Sigma.fst = _
  rw [inserted, map_take, map_append]
  rfl

section Fresh

variable {front back : List Ty}

def Leaves (array : SortedArray Ty ordering) (item : Ty) (live : List Ty) : Prop :=
  ∃ next rest, pushItem array item = some next ∧ Packed next (live.take array.capacity) (replicate rest default) ∧
    next.capacity = array.capacity

private theorem push_fresh_full (packed : Packed array (front ++ back) []) (below : array.isAbove item = some false)
    (searchable : Searchable array item) (ahead : ∀ held ∈ front, before ordering held item)
    (behind : ∀ held ∈ back, before ordering item held) : Leaves array item (front ++ item :: back) := by
  have room := packed.room
  rw [length_append, length_nil] at room
  rcases eq_nil_or_concat' back with rfl | ⟨others, last, rfl⟩
  · rw [append_nil] at packed
    rw [length_nil] at room
    refine ⟨array, 0, pushItem_eq (packed.push_refused below searchable ahead), ?_, rfl⟩
    rw [take_append_of_le_length (by omega), take_of_length_le (by omega)]
    exact packed
  · rw [length_append, length_singleton] at room
    obtain ⟨next, pushed, packed, capacity⟩ := packed.push_evicts below searchable ahead behind
    have split : front ++ item :: (others ++ [last]) = (front ++ item :: others) ++ [last] := by
      rw [append_assoc, cons_append]
    refine ⟨next, 0, pushItem_eq pushed, ?_, capacity⟩
    rw [split, take_left' (by rw [length_append, length_cons]; omega)]
    exact packed

private theorem push_fresh_room (packed : Packed array (front ++ back) (replicate (rest + 1) default)) (below : array.isAbove item = some false)
    (searchable : Searchable array item) (suits : Suits array item) (ahead : ∀ held ∈ front, before ordering held item)
    (behind : ∀ held ∈ back, before ordering item held) : Leaves array item (front ++ item :: back) := by
  have room := packed.room
  have size := packed.size
  rw [length_replicate, length_append] at room
  rw [length_append] at size
  have fresh : back = [] → item ≠ default := by
    rintro rfl
    rw [append_nil] at packed
    refine suits.behind below (by rw [length_nil] at size room; omega) fun held member => ahead held ?_
    rwa [packed.items_eq] at member
  obtain ⟨next, pushed, packed, capacity⟩ := packed.push_between below searchable ahead behind fresh
  refine ⟨next, rest, pushItem_eq pushed, ?_, capacity⟩
  rw [take_of_length_le (by rw [length_append, length_cons]; omega)]
  exact packed

private theorem push_fresh_last (packed : Packed array front (replicate rest default)) (above : array.isAbove item = some true) :
    Leaves array item (front ++ [item]) := by
  have room := packed.room
  rw [length_replicate] at room
  cases rest with
  | zero =>
    refine ⟨array, 0, pushItem_eq (packed.push_above_full above), ?_, rfl⟩
    rw [take_append_of_le_length (by omega), take_of_length_le (by omega)]
    exact packed
  | succ rest =>
    obtain ⟨next, pushed, packed, capacity⟩ := packed.push_above_room above
    refine ⟨next, rest, pushItem_eq pushed, ?_, capacity⟩
    rw [take_of_length_le (by rw [length_append, length_singleton]; omega)]
    exact packed

end Fresh

/-- A new item takes its place, and the last one leaves a full array. -/
theorem push_fresh (packed : Packed array levels.entries.keys (replicate rest default)) (absent : levels.find? item = none)
    (searched : Searched array item) (suits : Suits array item) : KeepsBest array levels item := by
  obtain ⟨front, back, whole, inserted, passed, later⟩ := Map.split_fresh absent ()
  have live : levels.entries.keys = front.keys ++ back.keys := by rw [whole, keys, map_append]
  have ahead : ∀ held ∈ front.keys, before ordering held item := forall_mem_map.mpr passed
  have behind : ∀ held ∈ back.keys, before ordering item held := forall_mem_map.mpr later
  rw [KeepsBest, best_fresh absent inserted]
  rw [live] at packed
  rcases isAbove_or _ packed item with below | ⟨above, others, last, ends, greater⟩
  · cases rest with
    | zero => exact push_fresh_full packed below (searched below) ahead behind
    | succ rest => exact push_fresh_room packed below (searched below) suits ahead behind
  · rcases suits.above above with rfl | ⟨-, member⟩
    · have sorted := keys_sorted levels
      rw [live, ends] at sorted
      have all := behind_of_above sorted greater
      rw [← ends] at all
      have last_place : back.keys = [] := by
        apply eq_nil_iff_forall_not_mem.mpr
        intro held member
        exact asymm (behind held member) (all held (mem_append_right _ member))
      rw [last_place, append_nil] at packed
      rw [last_place]
      exact push_fresh_last packed above
    · rw [packed.items_eq, ← live] at member
      obtain ⟨old, present⟩ := exists_of_mem_keys member
      rw [Map.find?_eq_some.mpr present] at absent
      cases absent

theorem push_best (packed : Packed array levels.entries.keys (replicate rest default)) (searched : Searched array item)
    (suits : Suits array item) : KeepsBest array levels item := by
  cases found : levels.find? item with
  | some old => exact push_known packed found searched suits
  | none => exact push_fresh packed found searched suits

private theorem suits_of_best {live came : List Ty} {next : SortedArray Ty ordering} (packed : Packed array live (replicate rest default))
    (searched : Searched array item) (pushed : pushItem array item = some next)
    (best : BestOf (before ordering) array.capacity (came ++ [item]) next.items) : Suits array item := by
  have room := packed.room
  have size := packed.size
  rw [length_replicate] at room
  have arrived : item ∈ came ++ [item] := mem_append_right _ mem_cons_self
  constructor
  · intro above
    cases ordering with
    | ascending => exact Or.inl rfl
    | descending =>
      refine Or.inr ?_
      obtain ⟨front, last, rfl, greater⟩ : ∃ front last, live = front ++ [last] ∧ item > last := by
        rcases isAbove_or _ packed item with below | ⟨-, found⟩
        · rw [above] at below
          cases below
        · exact found
      have held : last ∈ front ++ [last] := mem_append_right _ mem_cons_self
      cases rest with
      | zero =>
        have same := pushItem_eq (packed.push_above_full above)
        obtain rfl := Option.some.inj (pushed.symm.trans same)
        rw [packed.items_eq] at best ⊢
        refine ⟨by omega, ?_⟩
        by_contra outside
        exact lt_asymm greater (best.best last held item arrived outside)
      | succ rest =>
        obtain ⟨after, stored, kept, -⟩ := packed.push_above_room above
        obtain rfl := Option.some.inj (pushed.symm.trans (pushItem_eq stored))
        have sorted := best.sorted
        rw [kept.items_eq] at sorted
        exact absurd ((pairwise_append.mp sorted).2.2 last held item mem_cons_self) (lt_asymm greater)
  · rintro below vacant behind rfl
    rw [packed.items_eq] at behind
    have whole : Packed array (live ++ []) (replicate rest default) := (append_nil live).symm ▸ packed
    have index := whole.findInsertIndex_eq (searched below) behind fun _ member => absurd member not_mem_nil
    have read : array.data[live.length]? = some default := by
      obtain ⟨more, rfl⟩ : ∃ more, rest = more + 1 := ⟨rest - 1, by omega⟩
      rw [packed.data]
      exact Slots.getElem?_middle _ _ _
    obtain rfl := Option.some.inj (pushed.symm.trans (pushItem_eq (Packed.push_same below index read)))
    rw [packed.items_eq] at best
    exact irrefl _ (behind _ (best.complete (by omega) arrived))

/-- At every point of a run of pushes the array holds the best items of those
that came, sorted and each of them once. -/
def HoldsBest (ordering : SortOrder) (capacity : Nat) (items : List Ty) : Prop :=
  ∀ first, first <+: items → ∃ array : SortedArray Ty ordering, first.foldlM pushItem (SortedArray.new capacity) = some array ∧
    BestOf (before ordering) capacity first array.items

def bestOf (ordering : SortOrder) (capacity : Nat) (came : List Ty) : Map Ty Unit (before ordering) :=
  (Map.empty.emplaceAll (units came)).best capacity

omit [Inhabited Ty] in
private theorem bestOf_best (ordering : SortOrder) (capacity : Nat) (came : List Ty) :
    BestOf (before ordering) capacity came (bestOf ordering capacity came).entries.keys := by
  have best := @bestOf_emplaceAll _ _ (before ordering) _ _ _ (units came) capacity
  rwa [keys_units] at best

omit [Inhabited Ty] in
private theorem bestOf_concat (ordering : SortOrder) (capacity : Nat) (came : List Ty) (item : Ty) :
    ((bestOf ordering capacity came).emplace item ()).best capacity = bestOf ordering capacity (came ++ [item]) := by
  rw [bestOf, Map.best_emplace, bestOf, units, units, map_append, Map.emplaceAll_append]
  rfl

def Holding (ordering : SortOrder) (capacity : Nat) (came : List Ty) (array : SortedArray Ty ordering) : Prop :=
  array.capacity = capacity ∧ ∃ rest, Packed array (bestOf ordering capacity came).entries.keys (replicate rest default)

private theorem new_holding (ordering : SortOrder) (bound : capacity < 2 ^ 32) : Holding ordering capacity ([] : List Ty) (SortedArray.new capacity) := by
  have empty : bestOf ordering capacity ([] : List Ty) = Map.empty := Map.best_all (Nat.zero_le _)
  refine ⟨rfl, capacity, ?_⟩
  rw [empty]
  exact new_packed bound

theorem Holding.best {came : List Ty} (holding : Holding ordering capacity came array) : BestOf (before ordering) capacity came array.items := by
  obtain ⟨-, rest, packed⟩ := holding
  rw [packed.items_eq]
  exact bestOf_best ordering capacity came

theorem Holding.searched {came : List Ty} (holding : Holding ordering capacity came array) (small : capacity ≤ 2 ^ 31) (item : Ty) :
    Searched array item := by
  obtain ⟨same, rest, packed⟩ := holding
  have room := packed.room
  have size := packed.size
  exact fun _ => searchable_of_size (by omega) item

/-- An array holds the best items at every point of exactly the runs whose pushes
all suit, when its searches do not overflow. -/
theorem holdsBest_iff (bound : capacity < 2 ^ 32) (items : List Ty)
    (searched : capacity ≤ 2 ^ 31 ∨ Runs.AtEveryStepM pushItem Searched (SortedArray.new capacity : SortedArray Ty ordering) items) :
    HoldsBest ordering capacity items ↔
      Runs.AtEveryStepM pushItem Suits (SortedArray.new capacity : SortedArray Ty ordering) items := by
  have now : ∀ came item (array : SortedArray Ty ordering), came ++ [item] <+: items →
      came.foldlM pushItem (SortedArray.new capacity) = some array → Holding ordering capacity came array → Searched array item := by
    intro came item array inside ran holding
    rcases searched with small | every
    · exact holding.searched small item
    · obtain ⟨after, split⟩ := Runs.concat_prefix_iff.mp inside
      exact (Runs.atEveryStepM_iff items).mp every came item after array split ran
  let good := fun (came : List Ty) (result : Option (SortedArray Ty ordering)) =>
    ∃ array, result = some array ∧ BestOf (before ordering) capacity came array.items
  refine Runs.history_iff good (fun came array holding => ⟨array, rfl, holding.best⟩) ?_ ?_ (new_holding ordering bound)
  · intro came item array inside ran holding suits
    have searchable := now came item array inside ran holding
    obtain ⟨same, rest, packed⟩ := holding
    obtain ⟨next, left, pushed, kept, capacity_eq⟩ := push_best packed searchable suits
    rw [same, bestOf_concat] at kept
    exact ⟨next, pushed, capacity_eq.trans same, left, kept⟩
  · rintro came item array inside ran holding ⟨next, moved, best⟩
    have searchable := now came item array inside ran holding
    obtain ⟨rfl, rest, packed⟩ := holding
    exact suits_of_best packed searchable moved best

/-- A descending array of two that is filled from above, and refuses what it has
and what is too small. -/
theorem holdsBest_iff_two :
    HoldsBest .descending 2 [(7 : Int), 5, 5, 7, 3] ↔
      Runs.AtEveryStepM pushItem Suits (SortedArray.new 2 : SortedArray Int .descending) [7, 5, 5, 7, 3] :=
  holdsBest_iff (by decide) _ (Or.inl (by decide))

/-- A descending array puts a greater item behind a smaller one, and an ascending
one takes its first zero for one that it has. -/
theorem greater_item_last :
    (∃ array : SortedArray Int .descending, [1, 2].foldlM pushItem (SortedArray.new 4) = some array ∧ array.items = [1, 2] ∧
      ¬ BestOf (before .descending) 4 [1, 2] array.items) ∧
      ∃ array : SortedArray Int .ascending, [0].foldlM pushItem (SortedArray.new 4) = some array ∧ array.items = [] ∧
        ¬ BestOf (before .ascending) 4 [0] array.items := by
  constructor
  · refine ⟨⟨2, 4, [1, 2, 0, 0]⟩, by decide, by decide, fun best => ?_⟩
    exact absurd best.sorted (by decide)
  · refine ⟨⟨0, 4, [0, 0, 0, 0]⟩, by decide, by decide, fun best => ?_⟩
    exact absurd best.size (by decide)

end FinanceTech.Proofs.SortedArrayBest
