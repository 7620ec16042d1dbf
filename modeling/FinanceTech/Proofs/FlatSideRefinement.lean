import FinanceTech.Library.Depth
import FinanceTech.Proofs.FlatSideBounds

/-! A side with room for its live prices is the sorted map that the updates
write. The one exception is a price that stands where `int32_t` turns its index
negative: it is taken for a new one. -/

namespace FinanceTech.Proofs.FlatSideRefinement
open List Library FlatLevelMap FlatSideBounds
open SortedMap (Map Entries)

variable {K V : Type} {isBid : Bool}

section Order

variable [LinearOrder K]

/-- Best price first. -/
def Better (isBid : Bool) (a b : K) : Prop := FlatSide.better isBid a b = true

instance : DecidableRel (Better isBid : K → K → Prop) := fun a b => inferInstanceAs (Decidable (FlatSide.better isBid a b = true))

instance : IsStrictTotalOrder K (Better isBid) := by
  cases isBid with
  | false =>
    have same : (Better false : K → K → Prop) = (· < ·) := by
      funext first second
      simp [Better, FlatSide.better]
    rw [same]
    infer_instance
  | true =>
    have same : (Better true : K → K → Prop) = (· > ·) := by
      funext first second
      simp [Better, FlatSide.better]
    rw [same]
    infer_instance

end Order

def listed (entries : Entries K V) : List (PriceLevel K V) := entries.map fun entry => ⟨entry.1, entry.2⟩

@[simp] theorem listed_length (entries : Entries K V) : (listed entries).length = entries.length := length_map _

@[simp] theorem listed_append (first second : Entries K V) : listed (first ++ second) = listed first ++ listed second := map_append

@[simp] theorem listed_cons (entry : (_ : K) × V) (rest : Entries K V) : listed (entry :: rest) = ⟨entry.1, entry.2⟩ :: listed rest := rfl

theorem mem_listed {entries : Entries K V} {lvl : PriceLevel K V} : lvl ∈ listed entries ↔ ⟨lvl.price, lvl.qty⟩ ∈ entries := by
  refine ⟨fun member => ?_, fun member => mem_map_of_mem member⟩
  obtain ⟨entry, inside, rfl⟩ := mem_map.mp member
  exact inside

/-- The live levels are the entries, and the others are stale. -/
structure Packed (maxLevels : Nat) (side : FlatSide K V isBid) (entries : Entries K V) (stale : List (PriceLevel K V)) : Prop where
  lvls : side.lvls = listed entries ++ stale
  size : side.size = entries.length
  room : entries.length + stale.length = maxLevels

variable {maxLevels : Nat} {side : FlatSide K V isBid} {entries front back : Entries K V} {stale : List (PriceLevel K V)} {price : K} {old qty : V}

theorem Packed.inside (packed : Packed maxLevels side entries stale) : Inside maxLevels side := by
  refine ⟨?_, ?_⟩
  · rw [packed.lvls, length_append, listed_length]
    exact packed.room
  · rw [packed.size, ← packed.room]
    exact Nat.le_add_right _ _

theorem new_packed [Zero K] [Zero V] (maxLevels : Nat) :
    Packed maxLevels (FlatSide.new maxLevels : FlatSide K V isBid) [] (replicate maxLevels ⟨0, 0⟩) :=
  ⟨rfl, rfl, (Nat.zero_add _).trans length_replicate⟩

theorem Packed.levels_eq (packed : Packed maxLevels side entries stale) : side.levels = listed entries := by
  rw [FlatSide.levels, packed.lvls, packed.size, ← listed_length, take_left]

section Update

variable [LinearOrder K]

private theorem Packed.findPrice_eq (here : Option V)
    (packed : Packed maxLevels side (front ++ (here.map fun held => (⟨price, held⟩ : (_ : K) × V)).toList ++ back) stale)
    (passed : ∀ entry ∈ front, Better isBid entry.1 price) (later : ∀ entry ∈ back, Better isBid price entry.1) :
    side.findPrice price = some ((here.map fun _ => front.length).elim (-1) int32) := by
  let level := here.map fun held => (⟨price, held⟩ : PriceLevel K V)
  have lvls : side.lvls = listed front ++ level.toList ++ listed back ++ stale := by
    rw [packed.lvls]
    cases here <;> simp [level]
  have size : side.size = (listed front ++ level.toList ++ listed back).length := by
    rw [packed.size]
    cases here <;> simp [level]
  have before : ∀ lvl ∈ listed front, (lvl.price == price) = false ∧ FlatSide.better isBid price lvl.price = false := by
    intro lvl member
    have ahead := passed _ (mem_listed.mp member)
    refine ⟨beq_eq_false_iff_ne.mpr ?_, Bool.not_eq_true _ ▸ asymm (r := Better isBid) ahead⟩
    exact ne_of_irrefl (r := Better isBid) ahead
  have behind : ∀ lvl ∈ listed back, (lvl.price == price) = false ∧ FlatSide.better isBid price lvl.price = true := by
    intro lvl member
    have ahead := later _ (mem_listed.mp member)
    exact ⟨beq_eq_false_iff_ne.mpr (ne_of_irrefl' (r := Better isBid) ahead), ahead⟩
  have wanted : ∀ lvl ∈ level, (lvl.price == price) = true := by
    intro lvl member
    obtain ⟨held, -, rfl⟩ := Option.map_eq_some_iff.mp member
    exact beq_self_eq_true price
  have room : (listed front ++ level.toList).length ≤ side.size := by
    rw [size]
    exact (sublist_append_left _ _).length_le
  have found := Slots.find_finds level stale before wanted behind (Nat.zero_le _) room (Nat.le_of_eq size)
    (Nat.lt_succ_self (side.size - 0))
  have places : (level.map fun _ => (listed front).length) = here.map fun _ => front.length := by
    rw [Option.map_map, listed_length]
    rfl
  rw [← lvls, places] at found
  exact congrArg (Option.map fun found => found.elim (-1) int32) found

theorem Packed.findPrice_found (packed : Packed maxLevels side (front ++ ⟨price, old⟩ :: back) stale)
    (passed : ∀ entry ∈ front, Better isBid entry.1 price) (later : ∀ entry ∈ back, Better isBid price entry.1) :
    side.findPrice price = some (int32 front.length) := by
  rw [append_cons] at packed
  have found := findPrice_eq (some old) packed passed later
  rwa [Option.map_some, Option.elim_some] at found

private theorem Packed.findPrice_absent (packed : Packed maxLevels side (front ++ back) stale)
    (passed : ∀ entry ∈ front, Better isBid entry.1 price) (later : ∀ entry ∈ back, Better isBid price entry.1) :
    side.findPrice price = some (-1) := by
  rw [← append_nil front] at packed
  exact findPrice_eq none packed passed later

private theorem Packed.findInsertPos_eq (packed : Packed maxLevels side (front ++ back) stale) (passed : ∀ entry ∈ front, ¬ Better isBid price entry.1)
    (later : ∀ entry ∈ back, Better isBid price entry.1) : side.findInsertPos price = some front.length := by
  have lvls : side.lvls = listed front ++ listed back ++ stale := by rw [packed.lvls, listed_append]
  have size : side.size = (listed front ++ listed back).length := by rw [packed.size, ← listed_append, listed_length]
  have behind : ∀ lvl ∈ listed back, FlatSide.better isBid price lvl.price = true := fun lvl member => later _ (mem_listed.mp member)
  have room : (listed front).length ≤ side.size := by
    rw [size, length_append]
    exact Nat.le_add_right _ _
  have place := @Slots.search_finds _ Slots.middle (fun lvl => FlatSide.better isBid price lvl.price) (listed front) (listed back) stale
    (fun _ _ apart _ => Slots.middle_within apart) (fun lvl member => Bool.not_eq_true _ ▸ passed _ (mem_listed.mp member))
    behind _ 0 side.size (Nat.zero_le _) room (Nat.le_of_eq size)
    (Nat.lt_succ_self (side.size - 0))
  rw [← lvls, listed_length] at place
  exact place

variable [DecidableEq V] [Zero V]

private theorem Packed.update_remove (packed : Packed maxLevels side (front ++ ⟨price, old⟩ :: back) stale)
    (index : side.findPrice price = some (front.length : Int)) :
    ∃ next last, side.update price 0 = some next ∧ Packed maxLevels next (front ++ back) (last :: stale) := by
  have size : side.size - (front.length + 1) = back.length := by
    rw [packed.size, length_append, length_cons]
    omega
  have lvls : side.lvls = listed front ++ ⟨price, old⟩ :: (listed back ++ stale) := by
    rw [packed.lvls]
    simp
  obtain ⟨last, closed, -⟩ := Slots.shiftDown_closes (listed front) (listed back) stale (⟨price, old⟩ : PriceLevel K V)
  rw [← lvls, listed_length, listed_length, ← size] at closed
  refine ⟨⟨listed front ++ listed back ++ last :: stale, side.size - 1⟩, last, ?_, ?_, ?_, ?_⟩
  · simp [FlatSide.update, index, closed]
  · rw [listed_append]
  · rw [packed.size]
    simp
  · rw [← packed.room]
    simp only [length_append, length_cons]
    omega

private theorem Packed.update_set (packed : Packed maxLevels side (front ++ ⟨price, old⟩ :: back) stale)
    (index : side.findPrice price = some (front.length : Int)) (positive : qty ≠ 0) :
    ∃ next, side.update price qty = some next ∧ Packed maxLevels next (front ++ ⟨price, qty⟩ :: back) stale := by
  have lvls : side.lvls = listed front ++ ⟨price, old⟩ :: (listed back ++ stale) := by
    rw [packed.lvls]
    simp
  have read := Slots.getElem?_middle (listed front) (listed back ++ stale) (⟨price, old⟩ : PriceLevel K V)
  have stored := Slots.store_middle (listed front) (listed back ++ stale) (⟨price, old⟩ : PriceLevel K V) ⟨price, qty⟩
  rw [← lvls, listed_length] at read stored
  refine ⟨{ side with lvls := listed front ++ ⟨price, qty⟩ :: (listed back ++ stale) }, ?_, ?_, ?_, ?_⟩
  · simp [FlatSide.update, index, read, stored, positive]
  · simp
  · rw [packed.size]
    simp
  · rw [← packed.room]
    simp

theorem Packed.update_insert {last : PriceLevel K V} (packed : Packed maxLevels side (front ++ back) (last :: stale)) {idx : Int}
    (index : side.findPrice price = some idx) (negative : idx < 0) (positive : qty ≠ 0)
    (passed : ∀ entry ∈ front, ¬ Better isBid price entry.1) (later : ∀ entry ∈ back, Better isBid price entry.1) :
    ∃ next, side.update price qty = some next ∧ Packed maxLevels next (front ++ ⟨price, qty⟩ :: back) stale := by
  have pos := packed.findInsertPos_eq passed later
  have size : side.size = (listed front).length + (listed back).length := by
    rw [packed.size]
    simp
  have opened := Slots.insert_opens (listed front) (listed back) stale last ⟨price, qty⟩
  have lvls : side.lvls = listed front ++ listed back ++ last :: stale := by rw [packed.lvls, listed_append]
  rw [← lvls, ← size, listed_length] at opened
  obtain ⟨moved, shifted, stored⟩ := Option.bind_eq_some_iff.mp opened
  refine ⟨⟨listed front ++ ⟨price, qty⟩ :: (listed back ++ stale), side.size + 1⟩, ?_, ?_, ?_, ?_⟩
  · have absent : ¬ 0 ≤ idx := Int.not_le.mpr negative
    simp [FlatSide.update, index, absent, positive, pos, shifted, stored]
  · simp
  · rw [packed.size]
    simp [Nat.add_assoc]
  · rw [← packed.room]
    simp only [length_append, length_cons]
    omega

/-- Zero for a price that is not found changes nothing. -/
theorem update_ignored {idx : Int} (index : side.findPrice price = some idx) (negative : idx < 0) :
    side.update price (0 : V) = some side := by
  have absent : ¬ 0 ≤ idx := Int.not_le.mpr negative
  simp [FlatSide.update, index, absent]

end Update

/-- The live levels are those of the depth, strictly sorted best first, and the
first of them is the best. -/
structure Shows [LinearOrder K] (side : FlatSide K V isBid) (depth : Depth K V) : Prop where
  bound : side.size ≤ side.lvls.length
  sorted : (side.levels.map PriceLevel.price).Pairwise (Better isBid)
  same : ∀ price qty, depth price = some qty ↔ ⟨price, qty⟩ ∈ side.levels
  vacant : side.best = none ↔ ∀ price, depth price = none
  best : ∀ lvl, side.best = some lvl →
    depth lvl.price = some lvl.qty ∧ ∀ price, depth price ≠ none → price = lvl.price ∨ Better isBid lvl.price price

variable [LinearOrder K] {map : Map K V (Better isBid)}

theorem Packed.shows (packed : Packed maxLevels side map.entries stale) : Shows side map.find? := by
  have levels := packed.levels_eq
  have first : side.best = map.first?.map fun entry => ⟨entry.1, entry.2⟩ := by
    rw [FlatSide.best, packed.size, packed.lvls, Map.first?]
    cases map.entries <;> simp
  refine ⟨?_, ?_, fun price qty => ?_, ?_, fun lvl shown => ?_⟩
  · rw [packed.size, packed.lvls, length_append, listed_length]
    exact Nat.le_add_right _ _
  · rw [levels, listed, map_map]
    exact pairwise_map.mpr map.sorted
  · rw [levels, mem_listed]
    exact Map.find?_eq_some
  · rw [first, Option.map_eq_none_iff]
    refine ⟨fun absent => Map.first?_eq_none absent, fun empty => ?_⟩
    cases found : map.first? with
    | none => rfl
    | some entry => exact absurd ((Map.first?_least found).1.symm.trans (empty entry.1)) nofun
  · rw [first, Option.map_eq_some_iff] at shown
    obtain ⟨entry, least, rfl⟩ := shown
    exact Map.first?_least least

/-- The price does not stand at a place from `2 ^ 31` on. -/
def Near (side : FlatSide K V isBid) (price : K) : Prop :=
  ∀ place lvl, side.levels[place]? = some lvl → lvl.price = price → place < 2 ^ 31

/-- No more prices are live than this many. -/
def AtMost (count : Nat) (depth : Depth K V) : Prop :=
  ∃ prices : List K, prices.length ≤ count ∧ ∀ price, depth price ≠ none → price ∈ prices

theorem atMost_iff {count : Nat} : AtMost count map.find? ↔ map.entries.length ≤ count := by
  have keys : map.entries.keys.length = map.entries.length := length_map _
  constructor
  · rintro ⟨prices, few, covers⟩
    have unique : map.entries.keys.Nodup := map.sorted.nodupKeys (Better isBid)
    have within : map.entries.keys ⊆ prices := by
      intro price member
      obtain ⟨qty, present⟩ := exists_of_mem_keys member
      exact covers price (Map.find?_eq_some.mpr present ▸ nofun)
    rw [← keys]
    exact (subperm_of_subset unique within).length_le.trans few
  · intro few
    refine ⟨map.entries.keys, keys.trans_le few, fun price live => ?_⟩
    obtain ⟨qty, found⟩ := Option.ne_none_iff_exists'.mp live
    exact mem_keys_of_mem (Map.find?_eq_some.mp found)

theorem Packed.place_eq (packed : Packed maxLevels side (front ++ ⟨price, old⟩ :: back) stale)
    (passed : ∀ entry ∈ front, Better isBid entry.1 price) (later : ∀ entry ∈ back, Better isBid price entry.1)
    {place : Nat} {lvl : PriceLevel K V} (read : side.levels[place]? = some lvl) (same : lvl.price = price) : place = front.length := by
  have levels : side.levels = listed front ++ ⟨price, old⟩ :: listed back := by
    rw [packed.levels_eq]
    simp
  rw [levels] at read
  rcases Nat.lt_trichotomy place front.length with before | here | behind
  · rw [getElem?_append_left (by rwa [listed_length])] at read
    have ahead := passed _ (mem_listed.mp (mem_of_getElem? read))
    exact absurd ahead (same ▸ irrefl (r := Better isBid) lvl.price)
  · exact here
  · obtain ⟨more, rfl⟩ : ∃ more, place = (listed front).length + (more + 1) := ⟨place - front.length - 1, by rw [listed_length]; omega⟩
    rw [getElem?_append_right (Nat.le_add_right _ _), Nat.add_sub_cancel_left, getElem?_cons_succ] at read
    have ahead := later _ (mem_listed.mp (mem_of_getElem? read))
    exact absurd ahead (same ▸ irrefl (r := Better isBid) lvl.price)

private theorem Packed.near_iff (packed : Packed maxLevels side (front ++ ⟨price, old⟩ :: back) stale)
    (passed : ∀ entry ∈ front, Better isBid entry.1 price) (later : ∀ entry ∈ back, Better isBid price entry.1) :
    Near side price ↔ front.length < 2 ^ 31 := by
  constructor
  · intro near
    refine near front.length ⟨price, old⟩ ?_ rfl
    rw [packed.levels_eq, listed_append, listed_cons, ← listed_length]
    exact Slots.getElem?_middle _ _ _
  · intro small place lvl read same
    rwa [packed.place_eq passed later read same]

variable [DecidableEq V] [Zero V]

private theorem Packed.update_near (packed : Packed maxLevels side map.entries stale) {price : K} {qty : V} (near : Near side price)
    (room : AtMost maxLevels (Depth.write map.find? price qty)) :
    ∃ next left, side.update price qty = some next ∧ Packed maxLevels next (map.write price qty).entries left := by
  rw [← Map.find?_write, atMost_iff] at room
  cases found : map.find? price with
  | some old =>
    obtain ⟨front, back, whole, assigned, erased, passed, later⟩ := Map.split_found found qty
    rw [whole] at packed
    have index := packed.findPrice_found passed later
    rw [int32_of_lt ((packed.near_iff passed later).mp near)] at index
    by_cases zero : qty = 0
    · obtain ⟨next, last, done, kept⟩ := packed.update_remove index
      rw [zero, Map.write, if_pos rfl, erased]
      exact ⟨next, last :: stale, done, kept⟩
    · obtain ⟨next, done, kept⟩ := packed.update_set index zero
      rw [Map.write, if_neg zero, assigned]
      exact ⟨next, stale, done, kept⟩
  | none =>
    obtain ⟨front, back, whole, assigned, passed, later⟩ := Map.split_fresh found qty
    rw [whole] at packed
    have index := packed.findPrice_absent passed later
    by_cases zero : qty = 0
    · have same : map.write price qty = map := by rw [Map.write, if_pos zero, Map.erase_fresh found]
      rw [same, zero, whole]
      exact ⟨side, stale, update_ignored index (by decide), packed⟩
    · have write : (map.write price qty).entries = front ++ ⟨price, qty⟩ :: back := by rw [Map.write, if_neg zero, assigned]
      have counted := packed.room
      rw [write] at room ⊢
      simp only [length_append, length_cons] at room counted
      obtain ⟨last, rest, rfl⟩ : ∃ last rest, stale = last :: rest := exists_cons_of_length_pos (by omega)
      have ahead : ∀ entry ∈ front, ¬ Better isBid price entry.1 := fun entry member => asymm (r := Better isBid) (passed entry member)
      obtain ⟨next, done, kept⟩ := packed.update_insert index (by decide) zero ahead later
      exact ⟨next, rest, done, kept⟩

private theorem Packed.update_kept (packed : Packed maxLevels side (front ++ ⟨price, old⟩ :: back) stale) {idx : Int}
    (index : side.findPrice price = some idx) (negative : idx < 0) {next : FlatSide K V isBid} (done : side.update price 0 = some next)
    (depth : Depth K V) : ¬ Shows next (Depth.write depth price 0) := by
  obtain rfl := Option.some.inj ((update_ignored index negative).symm.trans done)
  intro shows
  have held : (⟨price, old⟩ : PriceLevel K V) ∈ side.levels := by
    rw [packed.levels_eq]
    simp
  have live := (shows.same price old).mpr held
  rw [Depth.write_self, if_pos rfl] at live
  cases live

/-- It gets a second level, if there is room for one. -/
private theorem Packed.update_twice (packed : Packed maxLevels side (front ++ ⟨price, old⟩ :: back) stale) {idx : Int}
    (index : side.findPrice price = some idx) (negative : idx < 0) (positive : qty ≠ 0)
    (passed : ∀ entry ∈ front, Better isBid entry.1 price) (later : ∀ entry ∈ back, Better isBid price entry.1)
    {next : FlatSide K V isBid} (done : side.update price qty = some next) (depth : Depth K V) : ¬ Shows next depth := by
  cases stale with
  | nil =>
    have full : Overfull maxLevels side (price, qty) := by
      refine ⟨beq_eq_false_iff_ne.mpr positive, packed.size.trans packed.room, ?_⟩
      rw [index, Option.any_some]
      exact decide_eq_true negative
    cases (update_overfull packed.inside full).symm.trans done
  | cons last rest =>
    rw [append_cons] at packed
    have ahead : ∀ entry ∈ front ++ [⟨price, old⟩], ¬ Better isBid price entry.1 := by
      intro entry member
      rcases mem_append.mp member with before | here
      · exact asymm (r := Better isBid) (passed entry before)
      · rw [mem_singleton.mp here]
        exact irrefl (r := Better isBid) price
    obtain ⟨after, inserted, kept⟩ := packed.update_insert index negative positive ahead later
    obtain rfl := Option.some.inj (inserted.symm.trans done)
    intro shows
    have twice := shows.sorted
    rw [kept.levels_eq, listed_append, map_append] at twice
    refine irrefl (r := Better isBid) price ((pairwise_append.mp twice).2.2 price ?_ price ?_)
    · simp
    · simp

private theorem Packed.update_far (packed : Packed maxLevels side map.entries stale) (small : maxLevels ≤ 2 ^ 32) {price : K} {qty : V}
    (far : ¬ Near side price) {next : FlatSide K V isBid} (done : side.update price qty = some next) :
    ¬ Shows next (Depth.write map.find? price qty) := by
  cases found : map.find? price with
  | none =>
    refine absurd (fun place lvl read same => ?_) far
    have member := mem_of_getElem? read
    rw [packed.levels_eq] at member
    have present := Map.find?_eq_some.mpr (mem_listed.mp member)
    rw [same, found] at present
    cases present
  | some old =>
    obtain ⟨front, back, whole, -, -, passed, later⟩ := Map.split_found found qty
    rw [whole] at packed
    have large := Nat.le_of_not_lt (mt (packed.near_iff passed later).mpr far)
    have counted := packed.room
    simp only [length_append, length_cons] at counted
    have index := packed.findPrice_found passed later
    have negative : int32 front.length < 0 := int32_neg large (by omega)
    by_cases zero : qty = 0
    · subst zero
      exact packed.update_kept index negative done _
    · exact packed.update_twice index negative zero passed later done _

/-- What the updates write, from nothing. -/
def written (updates : List (K × V)) : Depth K V := Depth.folded (fun _ => none) updates

theorem written_concat (updates : List (K × V)) (update : K × V) :
    written (updates ++ [update]) = Depth.write (written updates) update.1 update.2 := Depth.folded_append _ _ _

/-- After any of the updates the side shows what they write. -/
def Follows [Zero K] (isBid : Bool) (maxLevels : Nat) (updates : List (K × V)) : Prop :=
  ∀ before, before <+: updates →
    ∃ side : FlatSide K V isBid, before.foldlM step (FlatSide.new maxLevels) = some side ∧ Shows side (written before)

/-- No update is of a price that stands at a place from `2 ^ 31` on. -/
def AllNear [Zero K] (isBid : Bool) (maxLevels : Nat) (updates : List (K × V)) : Prop :=
  Runs.AtEveryStepM step (fun side update => Near side update.1) (FlatSide.new maxLevels : FlatSide K V isBid) updates

def Stored (maxLevels : Nat) (updates : List (K × V)) (side : FlatSide K V isBid) : Prop :=
  ∃ (map : Map K V (Better isBid)) (stale : List (PriceLevel K V)), Packed maxLevels side map.entries stale ∧ written updates = map.find?

theorem new_stored [Zero K] (isBid : Bool) (maxLevels : Nat) : Stored maxLevels [] (FlatSide.new maxLevels : FlatSide K V isBid) :=
  ⟨.empty, _, new_packed maxLevels, rfl⟩

theorem Stored.shows {updates : List (K × V)} (stored : Stored maxLevels updates side) : Shows side (written updates) := by
  obtain ⟨map, stale, packed, same⟩ := stored
  rw [same]
  exact packed.shows

theorem Stored.near {updates : List (K × V)} (stored : Stored maxLevels updates side) (small : maxLevels ≤ 2 ^ 31) (price : K) :
    Near side price := by
  obtain ⟨map, stale, packed, -⟩ := stored
  intro place lvl read _
  have below := (List.getElem?_eq_some_iff.mp read).1
  rw [packed.levels_eq, listed_length] at below
  have counted := packed.room
  omega

theorem Stored.step_near {updates : List (K × V)} {update : K × V} (stored : Stored maxLevels updates side)
    (room : AtMost maxLevels (written (updates ++ [update]))) (near : Near side update.1) :
    ∃ next, step side update = some next ∧ Stored maxLevels (updates ++ [update]) next := by
  obtain ⟨map, stale, packed, same⟩ := stored
  rw [written_concat, same] at room
  obtain ⟨next, left, done, kept⟩ := packed.update_near near room
  refine ⟨next, done, _, left, kept, ?_⟩
  rw [written_concat, same, Map.find?_write]

private theorem Stored.step_far {updates : List (K × V)} {update : K × V} (stored : Stored maxLevels updates side) (small : maxLevels ≤ 2 ^ 32)
    {next : FlatSide K V isBid} (done : step side update = some next) (shows : Shows next (written (updates ++ [update]))) :
    Near side update.1 := by
  obtain ⟨map, stale, packed, same⟩ := stored
  rw [written_concat, same] at shows
  by_contra far
  exact packed.update_far small far done shows

/-- For updates that fit, the side shows what they write as long as no price is
updated that stands at a place from `2 ^ 31` on, which there is none in a side of
as many levels. With no more than `2 ^ 32` levels it shows it in no other run. -/
theorem follows_iff [Zero K] (isBid : Bool) (maxLevels : Nat) (updates : List (K × V))
    (fits : ∀ before, before <+: updates → AtMost maxLevels (written before)) :
    (AllNear isBid maxLevels updates → Follows isBid maxLevels updates) ∧
      (maxLevels ≤ 2 ^ 31 → AllNear isBid maxLevels updates) ∧
      (maxLevels ≤ 2 ^ 32 → Follows isBid maxLevels updates → AllNear isBid maxLevels updates) := by
  have keeps : ∀ before update (side : FlatSide K V isBid), before ++ [update] <+: updates →
      before.foldlM step (FlatSide.new maxLevels) = some side → Stored maxLevels before side → Near side update.1 →
      ∃ next, step side update = some next ∧ Stored maxLevels (before ++ [update]) next :=
    fun _ _ _ inside _ stored near => stored.step_near (fits _ inside) near
  have start : Stored maxLevels [] (FlatSide.new maxLevels : FlatSide K V isBid) := new_stored isBid maxLevels
  refine ⟨fun near before inside => ?_, fun small => ?_, fun small => ?_⟩
  · obtain ⟨side, ran, stored⟩ := Runs.history_holds keeps near start before inside
    exact ⟨side, ran, stored.shows⟩
  · have always : Runs.AtEveryStepM step (fun _ _ => True) (FlatSide.new maxLevels : FlatSide K V isBid) updates :=
      (Runs.atEveryStepM_iff updates).mpr fun _ _ _ _ _ _ => trivial
    apply (Runs.atEveryStepM_iff updates).mpr
    rintro before update after side rfl ran
    obtain ⟨reached, same, stored⟩ := Runs.history_holds
      (fun before update side inside ran stored _ => keeps before update side inside ran stored (stored.near small update.1)) always start
      before (prefix_append before (update :: after))
    cases ran.symm.trans same
    exact stored.near small update.1
  · let good := fun (before : List (K × V)) (result : Option (FlatSide K V isBid)) => ∃ side, result = some side ∧ Shows side (written before)
    refine (Runs.history_iff good (fun _ side stored => ⟨side, rfl, stored.shows⟩) keeps ?_ start).mp
    rintro before update side inside - stored ⟨next, done, shows⟩
    exact stored.step_far small done shows

private theorem atMost_prices {updates : List (K × V)} {prices : List K} (few : prices.length ≤ maxLevels)
    (covers : ∀ update ∈ updates, update.1 ∈ prices) : ∀ before, before <+: updates → AtMost maxLevels (written before) := by
  intro before inside
  refine ⟨prices, few, fun price live => ?_⟩
  by_contra absent
  have fresh : price ∉ before.map Prod.fst := by
    intro member
    obtain ⟨update, among, rfl⟩ := mem_map.mp member
    exact absent (covers update (inside.subset among))
  apply live
  rw [written, Depth.folded_apply, Depth.lastWrite_fresh fresh]
  rfl

/-- Three updates of a side of two levels. -/
theorem follows_iff_three : 2 ≤ 2 ^ 31 ∧ Follows true 2 [((1 : ℕ), (5 : ℕ)), (2, 6), (1, 0)] := by
  have outcome := follows_iff true 2 [((1 : ℕ), (5 : ℕ)), (2, 6), (1, 0)] (@atMost_prices _ _ 2 _ _ _ _ [1, 2] (by decide) (by decide))
  exact ⟨by decide, outcome.1 (outcome.2.1 (by decide))⟩

def counting (count : Nat) : Entries ℕ ℕ := (range count).map fun index => ⟨index, 1⟩

def ascending (count : Nat) : List (ℕ × ℕ) := (range count).map fun index => (index, 1)

private theorem counting_behind (count : Nat) : ∀ entry ∈ counting count, Better false entry.1 count := by
  intro entry member
  obtain ⟨index, inside, rfl⟩ := mem_map.mp member
  exact decide_eq_true (mem_range.mp inside)

private theorem ascending_packed {count : Nat} (room : count ≤ maxLevels) :
    ∃ (side : FlatSide ℕ ℕ false) (stale : List (PriceLevel ℕ ℕ)), (ascending count).foldlM step (FlatSide.new maxLevels) = some side ∧
      Packed maxLevels side (counting count) stale := by
  induction count with
  | zero => exact ⟨_, _, rfl, new_packed maxLevels⟩
  | succ count ih =>
    obtain ⟨side, stale, ran, packed⟩ := ih (Nat.le_of_succ_le room)
    have updates : ascending (count + 1) = ascending count ++ [(count, 1)] := by
      rw [ascending, range_succ, map_append]
      rfl
    have entries : counting (count + 1) = counting count ++ [⟨count, 1⟩] := by
      rw [counting, range_succ, map_append]
      rfl
    have length : (counting count).length = count := (length_map _).trans length_range
    have counted := packed.room
    obtain ⟨last, rest, rfl⟩ : ∃ last rest, stale = last :: rest := exists_cons_of_length_pos (by omega)
    rw [← append_nil (counting count)] at packed
    have behind := counting_behind count
    have index := packed.findPrice_absent behind (fun _ member => absurd member not_mem_nil)
    have ahead : ∀ entry ∈ counting count, ¬ Better false count entry.1 := fun entry member => asymm (r := Better false) (behind entry member)
    obtain ⟨next, done, kept⟩ := packed.update_insert index (by decide) Nat.one_ne_zero ahead (fun _ member => absurd member not_mem_nil)
    refine ⟨next, rest, ?_, entries ▸ kept⟩
    rw [updates, Runs.foldlM_concat_some ran]
    exact done

/-- The last of more than `2 ^ 31` asks cannot be removed. -/
private theorem ascending_kept {count : Nat} (far : 2 ^ 31 ≤ count) (small : count < 2 ^ 32) :
    ¬ Follows false (count + 1) (ascending (count + 1) ++ [(count, 0)]) := by
  intro follows
  obtain ⟨side, stale, ran, packed⟩ := ascending_packed (Nat.le_refl (count + 1))
  obtain ⟨last, removed, shown⟩ := follows _ (prefix_refl _)
  have entries : counting (count + 1) = counting count ++ ⟨count, 1⟩ :: [] := by
    rw [counting, range_succ, map_append]
    rfl
  rw [entries] at packed
  have index := packed.findPrice_found (counting_behind count) (fun _ member => absurd member not_mem_nil)
  have length : (counting count).length = count := (length_map _).trans length_range
  rw [length] at index
  rw [Runs.foldlM_concat_some ran] at removed
  rw [written_concat] at shown
  exact packed.update_kept index (int32_neg far small) removed _ shown

/-- A side of `2 ^ 31 + 1` asks, the last of which is removed and stays. -/
theorem last_ask_kept : (∀ before, before <+: ascending (2 ^ 31 + 1) ++ [(2 ^ 31, 0)] →
      AtMost (2 ^ 31 + 1) (written before)) ∧
    ¬ Follows false (2 ^ 31 + 1) (ascending (2 ^ 31 + 1) ++ [(2 ^ 31, 0)]) := by
  refine ⟨atMost_prices (Nat.le_of_eq (@length_range (2 ^ 31 + 1))) fun update member => mem_range.mpr ?_,
    ascending_kept (le_refl (2 ^ 31)) (by decide)⟩
  rcases mem_append.mp member with before | last
  · obtain ⟨index, inside, rfl⟩ := mem_map.mp before
    exact mem_range.mp inside
  · rw [mem_singleton.mp last]
    exact Nat.lt_succ_self _

end FinanceTech.Proofs.FlatSideRefinement
