import FinanceTech.DepthLadder

/-! The flat map stores the entries of a sorted map in its live slots. What the
slots behind them hold matters in one place only: both operations read the slot
their search returns without asking whether it is live. -/

namespace FinanceTech.Proofs.FlatMapSlots
open List Library SortedMap MarketDepth

section Storage

variable {K V : Type} {ordering : SortOrder}

def nodes (entries : Entries K V) : List (Node K V) := entries.map fun entry => ⟨entry.1, entry.2⟩

@[simp] theorem nodes_length (entries : Entries K V) : (nodes entries).length = entries.length := length_map _

@[simp] theorem nodes_append (first second : Entries K V) : nodes (first ++ second) = nodes first ++ nodes second := map_append

@[simp] theorem nodes_cons (entry : (_ : K) × V) (rest : Entries K V) :
    nodes (entry :: rest) = ⟨entry.1, entry.2⟩ :: nodes rest := rfl

@[simp] theorem nodes_nil : nodes ([] : Entries K V) = [] := rfl

/-- The live slots hold the entries, and the others are stale. -/
structure Packed (map : FlatMap K V ordering) (entries : Entries K V) (stale : List (Node K V)) : Prop where
  data : map.data = nodes entries ++ stale
  size : map.size = entries.length
  capacity : map.data.length = map.capacity
  bound : map.capacity < 2 ^ 32

/-- The bound keeps the sum of two indices from wrapping. -/
structure Stores (map : FlatMap K V ordering) (entries : Entries K V) (stale : List (Node K V)) : Prop where
  data : map.data = nodes entries ++ stale
  size : map.size = entries.length
  capacity : map.data.length = map.capacity
  bound : map.capacity < 2 ^ 31

/-- The map is empty and the slot at its front still has the key. -/
def Stale (map : FlatMap K V ordering) (key : K) : Prop := map.size = 0 ∧ map.front.map Node.key = some key

theorem uint32_of_lt {value : Nat} (small : value < 2 ^ 32) : uint32 value = value := Nat.mod_eq_of_lt small

theorem uint32_pred {size : Nat} (small : size + 1 < 2 ^ 32) : uint32 (size + 1 + (2 ^ 32 - 1)) = size := by
  unfold uint32
  omega

variable {map : FlatMap K V ordering} {entries : Entries K V} {stale : List (Node K V)} {entry : (_ : K) × V}

theorem Stores.packed (stores : Stores map entries stale) : Packed map entries stale :=
  ⟨stores.data, stores.size, stores.capacity, stores.bound.trans (by decide)⟩

theorem Packed.stores (packed : Packed map entries stale) (bound : map.capacity < 2 ^ 31) : Stores map entries stale :=
  ⟨packed.data, packed.size, packed.capacity, bound⟩

theorem Packed.room (packed : Packed map entries stale) : entries.length + stale.length = map.capacity := by
  have length := congrArg List.length packed.data
  rw [packed.capacity, length_append, nodes_length] at length
  exact length.symm

theorem Stores.room (stores : Stores map entries stale) : entries.length + stale.length = map.capacity := stores.packed.room

theorem Packed.small (packed : Packed map entries stale) : entries.length < 2 ^ 32 := by
  have room := packed.room
  have bound := packed.bound
  omega

theorem Packed.front_eq (packed : Packed map (entry :: entries) stale) : map.front = some ⟨entry.1, entry.2⟩ := by
  unfold FlatMap.front
  rw [packed.data]
  rfl

theorem Packed.front_stale {slot : Node K V} (packed : Packed map [] (slot :: stale)) : map.front = some slot := by
  unfold FlatMap.front
  rw [packed.data]
  rfl

private theorem Packed.back_eq (packed : Packed map (entries ++ [entry]) stale) : map.back = some ⟨entry.1, entry.2⟩ := by
  have size : map.size = entries.length + 1 := by simp [packed.size]
  have small : entries.length + 1 < 2 ^ 32 := by simpa using packed.small
  have place : uint32 (map.size + (2 ^ 32 - 1)) = (nodes entries).length := by
    rw [size, nodes_length]
    exact uint32_pred (by omega)
  have live : map.data = nodes entries ++ ⟨entry.1, entry.2⟩ :: stale := by simp [packed.data]
  unfold FlatMap.back
  rw [place, live]
  exact Slots.getElem?_middle _ _ _

end Storage

section Order

variable {K : Type} [LinearOrder K] {ordering : SortOrder}

theorem compare_eq_true {first second : K} : FlatMap.compare ordering first second = true ↔ ¬ before ordering second first := by
  cases ordering <;> simp [FlatMap.compare, before]

theorem compare_eq_false {first second : K} : FlatMap.compare ordering first second = false ↔ before ordering second first := by
  cases ordering <;> simp [FlatMap.compare, before]

end Order

section Search

variable {K V : Type} [LinearOrder K] {ordering : SortOrder}

private theorem stale_reads {map : FlatMap K V ordering} {key : K} (stale : Stale map key) :
    ∃ slot, slot.key = key ∧ map.data[0]? = some slot ∧ map.findInsertIndex slot.key = some 0 := by
  obtain ⟨size, shown⟩ := stale
  obtain ⟨slot, front, same⟩ := Option.map_eq_some_iff.mp shown
  exact ⟨slot, same, front, by simp [FlatMap.findInsertIndex, size, Slots.search]⟩

/-- Erasing the key that an empty map still shows counts the size below zero. -/
theorem erase_stale {map : FlatMap K V ordering} {key : K} (stale : Stale map key) :
    map.erase key = some ({ map with size := 2 ^ 32 - 1 }, true) := by
  have size := stale.1
  obtain ⟨slot, rfl, read, index⟩ := stale_reads stale
  have inside : map.isOutside slot.key = some false := by simp [FlatMap.isOutside, size]
  simp [FlatMap.erase, inside, index, read, size, Slots.shiftDown, uint32]

theorem push_stale {map : FlatMap K V ordering} {key : K} (stale : Stale map key) (value : V) :
    map.push key value = some (map, some 0) := by
  have size := stale.1
  obtain ⟨slot, rfl, read, index⟩ := stale_reads stale
  have behind : map.isBehind slot.key = some false := by simp [FlatMap.isBehind, size]
  by_cases full : map.capacity = 0 <;> simp [FlatMap.push, behind, index, read, full]

/-- A binary search for the key looks at no slot from `2 ^ 31` on, so the sums of
its indices do not overflow. -/
def Searchable (map : FlatMap K V ordering) (key : K) : Prop :=
  ∀ probe ∈ Slots.probes (fun node => FlatMap.compare ordering key node.key) map.data (map.size + 1) 0 map.size, probe < 2 ^ 31

instance (map : FlatMap K V ordering) (key : K) : Decidable (Searchable map key) :=
  inferInstanceAs (Decidable (∀ probe ∈ _, _))

theorem searchable_of_size {map : FlatMap K V ordering} (small : map.size ≤ 2 ^ 31) (key : K) : Searchable map key :=
  fun probe member => (Slots.probes_lt _ _ _ _ _ probe member).trans_le small

end Search

namespace Packed

variable {K V : Type} [LinearOrder K] {ordering : SortOrder} {map : FlatMap K V ordering} {front back : Entries K V}
  {stale : List (Node K V)} {entry : (_ : K) × V} {key : K}

theorem findInsertIndex_eq (packed : Packed map (front ++ back) stale) (searchable : Searchable map key)
    (passed : ∀ entry ∈ front, before ordering entry.1 key) (stopped : ∀ entry ∈ back, ¬ before ordering entry.1 key) :
    map.findInsertIndex key = some front.length := by
  have size := packed.size
  have agrees : ∀ left right, Slots.middle left right < 2 ^ 31 → uint32 (left + right) / 2 = Slots.middle left right := by
    intro left right below
    unfold Slots.middle at below ⊢
    rw [uint32_of_lt (by omega)]
  unfold FlatMap.findInsertIndex
  rw [Slots.search_agrees agrees searchable, packed.data, nodes_append, ← nodes_length front]
  apply Slots.search_finds stale
  · intro left right apart bounded
    unfold Slots.middle
    omega
  · intro node member
    obtain ⟨entry, present, rfl⟩ := mem_map.mp member
    exact compare_eq_false.mpr (passed entry present)
  · intro node member
    obtain ⟨entry, present, rfl⟩ := mem_map.mp member
    exact compare_eq_true.mpr (stopped entry present)
  · exact Nat.zero_le _
  · simp [size]
  · simp [size]
  · omega

omit [LinearOrder K] in
private theorem getElem?_live (packed : Packed map (front ++ entry :: back) stale) :
    map.data[front.length]? = some ⟨entry.1, entry.2⟩ := by
  rw [packed.data]
  simp

private theorem stopped_cons (value : V) (later : ∀ entry ∈ back, before ordering key entry.1) :
    ∀ entry ∈ (⟨key, value⟩ :: back : Entries K V), ¬ before ordering entry.1 key := by
  intro entry member
  rcases mem_cons.mp member with rfl | member
  · exact irrefl key
  · exact asymm (later entry member)

private theorem stopped_later (later : ∀ entry ∈ back, before ordering key entry.1) : ∀ entry ∈ back, ¬ before ordering entry.1 key :=
  fun entry member => asymm (later entry member)

/-- The keys that stand at or after the key keep it from lying behind. -/
theorem isBehind_eq (packed : Packed map (front ++ back) stale) (passed : ∀ entry ∈ front, before ordering entry.1 key)
    (stopped : ∀ entry ∈ back, ¬ before ordering entry.1 key) :
    map.isBehind key = some (back.isEmpty && !front.isEmpty) := by
  have size := packed.size
  unfold FlatMap.isBehind
  induction back using reverseRecOn with
  | append_singleton back last =>
    have whole : Packed map (front ++ back ++ [last]) stale := by simpa using packed
    have held := whole.back_eq
    have kept : FlatMap.compare ordering key last.1 = true := compare_eq_true.mpr (stopped last (by simp))
    simp [size, held, kept]
  | nil =>
    induction front using reverseRecOn with
    | nil => simp [size]
    | append_singleton front last =>
      have whole : Packed map (front ++ [last]) stale := by simpa using packed
      have held := whole.back_eq
      have kept : FlatMap.compare ordering key last.1 = false := compare_eq_false.mpr (passed last (by simp))
      simp [size, held, kept]

private theorem isOutside_found {value : V} (packed : Packed map (front ++ ⟨key, value⟩ :: back) stale)
    (passed : ∀ entry ∈ front, before ordering entry.1 key)
    (later : ∀ entry ∈ back, before ordering key entry.1) : map.isOutside key = some false := by
  have size := packed.size
  have behind : map.isBehind key = some false := packed.isBehind_eq passed (stopped_cons value later)
  unfold FlatMap.isOutside
  cases front with
  | nil =>
    have kept : FlatMap.compare ordering key key = true := compare_eq_true.mpr (irrefl key)
    simp [size, front_eq packed, kept, behind]
  | cons first front =>
    have kept : FlatMap.compare ordering first.1 key = true := compare_eq_true.mpr (asymm (passed first mem_cons_self))
    have held : map.front = some ⟨first.1, first.2⟩ := front_eq packed
    simp [size, held, kept, behind]

private theorem isOutside_absent (packed : Packed map (front ++ back) stale) (passed : ∀ entry ∈ front, before ordering entry.1 key)
    (stopped : ∀ entry ∈ back, ¬ before ordering entry.1 key) :
    map.isOutside key = some true ∨ map.isOutside key = some false ∧ (back = [] → front = []) := by
  have size := packed.size
  have behind := packed.isBehind_eq passed stopped
  unfold FlatMap.isOutside
  cases whole : front ++ back with
  | nil =>
    rw [whole] at size
    exact .inr ⟨by simp [size], fun _ => (append_eq_nil_iff.mp whole).1⟩
  | cons first rest =>
    have held : map.front = some ⟨first.1, first.2⟩ := front_eq (whole ▸ packed)
    rw [whole] at size
    cases ahead : FlatMap.compare ordering first.1 key with
    | false => exact .inl (by simp [size, held, ahead])
    | true =>
      cases back with
      | nil =>
        have nonempty : front ≠ [] := by
          rintro rfl
          cases whole
        exact .inl (by simp [size, held, ahead, behind, nonempty])
      | cons next back => exact .inr ⟨by simp [size, held, ahead, behind], by simp⟩

/-- A key that is there keeps its slot, and the caller gets to its value. -/
theorem push_found {old : V} (packed : Packed map (front ++ ⟨key, old⟩ :: back) stale)
    (searchable : map.isBehind key = some false → Searchable map key)
    (passed : ∀ entry ∈ front, before ordering entry.1 key) (later : ∀ entry ∈ back, before ordering key entry.1) (value : V) :
    map.push key value = some (map, some front.length) := by
  have behind : map.isBehind key = some false := packed.isBehind_eq passed (stopped_cons old later)
  have index := packed.findInsertIndex_eq (searchable behind) passed (stopped_cons old later)
  have read := packed.getElem?_live
  unfold FlatMap.push
  by_cases full : map.capacity = front.length <;> simp [behind, index, read, full]

omit [LinearOrder K] in
theorem assign_eq {old : V} (packed : Packed map (front ++ ⟨key, old⟩ :: back) stale) (value : V) :
    ∃ next, map.assign front.length value = some next ∧ Packed next (front ++ ⟨key, value⟩ :: back) stale ∧
      next.capacity = map.capacity := by
  have read := packed.getElem?_live
  have stored : Slots.store map.data front.length (⟨key, value⟩ : Node K V) =
      some (nodes (front ++ ⟨key, value⟩ :: back) ++ stale) := by
    have middle := Slots.store_middle (nodes front) (nodes back ++ stale) (⟨key, old⟩ : Node K V) ⟨key, value⟩
    rw [packed.data]
    simpa using middle
  refine ⟨{ map with data := nodes (front ++ ⟨key, value⟩ :: back) ++ stale }, ?_, ⟨rfl, ?_, ?_, packed.bound⟩, rfl⟩
  · simp [FlatMap.assign, read, stored]
  · simp [packed.size]
  · exact (Slots.store_length stored).trans packed.capacity

/-- A new key behind all others takes the first stale slot. -/
theorem push_behind {slot : Node K V} (packed : Packed map front (slot :: stale)) (nonempty : front ≠ [])
    (passed : ∀ entry ∈ front, before ordering entry.1 key) (value : V) :
    ∃ next, map.push key value = some (next, some front.length) ∧ Packed next (front ++ [⟨key, value⟩]) stale ∧
      next.capacity = map.capacity := by
  have whole : Packed map (front ++ []) (slot :: stale) := by simpa using packed
  have behind : map.isBehind key = some true := by simp [whole.isBehind_eq passed (by simp), nonempty]
  have size := packed.size
  have room := packed.room
  have bound := packed.bound
  rw [length_cons] at room
  have below : map.size ≠ map.capacity := by omega
  have stored : Slots.store map.data map.size (⟨key, value⟩ : Node K V) =
      some (nodes (front ++ [⟨key, value⟩]) ++ stale) := by
    have middle := Slots.store_middle (nodes front) stale slot ⟨key, value⟩
    rw [packed.data, size]
    simpa using middle
  refine ⟨⟨map.size + 1, map.capacity, nodes (front ++ [⟨key, value⟩]) ++ stale⟩, ?_, ⟨rfl, ?_, ?_, bound⟩, rfl⟩
  · have wide : uint32 (map.size + 1) = map.size + 1 := uint32_of_lt (by omega)
    rw [← size]
    simp only [FlatMap.push, behind, stored, wide, Option.bind_eq_bind, Option.bind_some, if_true, if_neg below]
  · simp [size]
  · exact (Slots.store_length stored).trans packed.capacity

theorem push_refused (packed : Packed map front []) (nonempty : front ≠ [])
    (passed : ∀ entry ∈ front, before ordering entry.1 key) (value : V) : map.push key value = some (map, none) := by
  have whole : Packed map (front ++ []) [] := by simpa using packed
  have behind : map.isBehind key = some true := by simp [whole.isBehind_eq passed (by simp), nonempty]
  have full : map.size = map.capacity := by
    have room := packed.room
    rw [length_nil, Nat.add_zero] at room
    exact packed.size.trans room
  simp only [FlatMap.push, behind, Option.bind_eq_bind, Option.bind_some, if_true, if_pos full]

/-- What the search finds at the place of a new key. -/
private theorem read_fresh (packed : Packed map (front ++ back) stale) (later : ∀ entry ∈ back, before ordering key entry.1)
    (between : back = [] → front = [] ∧ ∃ slot rest, stale = slot :: rest ∧ slot.key ≠ key) :
    ∃ found, map.data[front.length]? = some found ∧ key ≠ found.key := by
  cases back with
  | nil =>
    obtain ⟨rfl, slot, rest, rfl, other⟩ := between rfl
    refine ⟨slot, ?_, other.symm⟩
    rw [packed.data]
    rfl
  | cons next back =>
    refine ⟨_, packed.getElem?_live, fun same => ?_⟩
    cases same
    exact irrefl next.1 (later next mem_cons_self)

/-- A key goes to its place, and the last node that moves takes the slot behind. -/
theorem push_inserts {slot : Node K V} (data : map.data = nodes front ++ nodes back ++ slot :: stale)
    (allocated : map.data.length = map.capacity) (bound : map.capacity < 2 ^ 32) (behind : map.isBehind key = some false)
    (index : map.findInsertIndex key = some front.length)
    (grown : (if map.capacity = map.size then map.size else uint32 (map.size + 1)) = front.length + back.length + 1)
    {found : Node K V} (read : map.data[front.length]? = some found) (fresh : ¬ key = found.key) (value : V) :
    ∃ next, map.push key value = some (next, some front.length) ∧ Packed next (front ++ ⟨key, value⟩ :: back) stale ∧
      next.capacity = map.capacity := by
  have room := congrArg List.length data
  rw [allocated] at room
  simp only [length_append, length_cons, nodes_length] at room
  have inside : map.capacity ≠ front.length := by omega
  have start : uint32 (front.length + back.length + 1 + (2 ^ 32 - 1)) = front.length + back.length := uint32_pred (by omega)
  have opened := Slots.insert_opens (nodes front) (nodes back) stale slot ⟨key, value⟩
  rw [← data, nodes_length, nodes_length, Option.bind_eq_some_iff] at opened
  obtain ⟨shifted, moved, stored⟩ := opened
  refine ⟨⟨front.length + back.length + 1, map.capacity, nodes front ++ ⟨key, value⟩ :: (nodes back ++ stale)⟩, ?_,
    ⟨?_, ?_, ?_, bound⟩, rfl⟩
  · simp only [FlatMap.push, behind, index, read, grown, start, moved, stored, Option.bind_eq_bind, Option.bind_some,
      Bool.false_eq_true, if_false, if_neg inside, if_neg fresh]
  · simp
  · simp only [length_append, length_cons]
    omega
  · simp only [length_append, length_cons, nodes_length]
    omega

/-- A new key in front of another, or the first key of an empty map whose front
slot has a different one: the nodes behind it move up. -/
theorem push_between {slot : Node K V} (packed : Packed map (front ++ back) (slot :: stale))
    (searchable : map.isBehind key = some false → Searchable map key)
    (passed : ∀ entry ∈ front, before ordering entry.1 key) (later : ∀ entry ∈ back, before ordering key entry.1)
    (between : back = [] → front = [] ∧ slot.key ≠ key) (value : V) :
    ∃ next, map.push key value = some (next, some front.length) ∧ Packed next (front ++ ⟨key, value⟩ :: back) stale ∧
      next.capacity = map.capacity := by
  have size := packed.size
  have room := packed.room
  have bound := packed.bound
  rw [length_append] at size
  rw [length_append, length_cons] at room
  have behind : map.isBehind key = some false := by
    rw [packed.isBehind_eq passed (stopped_later later)]
    cases back with
    | nil => simp [(between rfl).1]
    | cons => rfl
  have index := packed.findInsertIndex_eq (searchable behind) passed (stopped_later later)
  obtain ⟨found, read, fresh⟩ := packed.read_fresh later
    fun empty => ⟨(between empty).1, slot, stale, rfl, (between empty).2⟩
  have data : map.data = nodes front ++ nodes back ++ slot :: stale := by rw [packed.data, nodes_append]
  refine push_inserts data packed.capacity bound behind index ?_ read fresh value
  rw [if_neg (by omega), uint32_of_lt (by omega), size]

/-- In a full map the last node makes room. -/
theorem push_evicts {last : (_ : K) × V} (packed : Packed map (front ++ (back ++ [last])) [])
    (searchable : map.isBehind key = some false → Searchable map key)
    (passed : ∀ entry ∈ front, before ordering entry.1 key) (later : ∀ entry ∈ back ++ [last], before ordering key entry.1)
    (value : V) :
    ∃ next, map.push key value = some (next, some front.length) ∧ Packed next (front ++ ⟨key, value⟩ :: back) [] ∧
      next.capacity = map.capacity := by
  have size := packed.size
  have room := packed.room
  simp only [length_append, length_singleton, length_nil] at size room
  have some_back : back ++ [last] ≠ [] := by simp
  have behind : map.isBehind key = some false := by
    rw [packed.isBehind_eq passed (stopped_later later)]
    simp
  have index := packed.findInsertIndex_eq (searchable behind) passed (stopped_later later)
  obtain ⟨found, read, fresh⟩ := packed.read_fresh later fun empty => absurd empty some_back
  have data : map.data = nodes front ++ nodes back ++ [⟨last.1, last.2⟩] := by simp [packed.data]
  refine push_inserts data packed.capacity packed.bound behind index ?_ read fresh value
  rw [if_pos (by omega), size]
  omega

/-- A key that is there leaves, and the nodes behind it move down. -/
theorem erase_found {old : V} (packed : Packed map (front ++ ⟨key, old⟩ :: back) stale)
    (searchable : map.isOutside key = some false → Searchable map key)
    (passed : ∀ entry ∈ front, before ordering entry.1 key) (later : ∀ entry ∈ back, before ordering key entry.1) :
    ∃ next last, map.erase key = some (next, true) ∧ Packed next (front ++ back) (last :: stale) ∧
      next.capacity = map.capacity ∧ (front ++ back = [] → last.key = key) := by
  have inside := packed.isOutside_found passed later
  have index := packed.findInsertIndex_eq (searchable inside) passed (stopped_cons old later)
  have read := packed.getElem?_live
  have size := packed.size
  have small := packed.small
  have room := packed.room
  rw [length_append, length_cons] at size small room
  have count : map.size - (front.length + 1) = (nodes back).length := by
    rw [nodes_length]
    omega
  obtain ⟨last, closed, left⟩ := Slots.shiftDown_closes (nodes front) (nodes back) stale ⟨key, old⟩
  have live : map.data = nodes front ++ ⟨key, old⟩ :: (nodes back ++ stale) := by simp [packed.data]
  rw [← live, ← count, nodes_length, ← nodes_append] at closed
  have shrunk : uint32 (map.size + (2 ^ 32 - 1)) = front.length + back.length := by
    rw [size, ← Nat.add_assoc]
    exact uint32_pred (by omega)
  refine ⟨⟨front.length + back.length, map.capacity, nodes (front ++ back) ++ last :: stale⟩, last, ?_,
    ⟨rfl, ?_, ?_, packed.bound⟩, rfl, ?_⟩
  · simp only [FlatMap.erase, inside, index, read, closed, shrunk, Option.bind_eq_bind, Option.bind_some, Bool.false_eq_true,
      if_false, ne_eq, not_true_eq_false]
  · simp
  · simp
    omega
  · intro empty
    rw [left (by rw [(append_eq_nil_iff.mp empty).2]; rfl)]

/-- A key that is not there, unless it is the one an empty map still shows. -/
theorem erase_absent (packed : Packed map (front ++ back) stale) (nonempty : 0 < map.capacity)
    (searchable : map.isOutside key = some false → Searchable map key)
    (passed : ∀ entry ∈ front, before ordering entry.1 key) (later : ∀ entry ∈ back, before ordering key entry.1)
    (fresh : ¬ Stale map key) : map.erase key = some (map, false) := by
  rcases packed.isOutside_absent passed (stopped_later later) with outside | ⟨inside, between⟩
  · simp [FlatMap.erase, outside]
  · have index := packed.findInsertIndex_eq (searchable inside) passed (stopped_later later)
    obtain ⟨found, read, different⟩ := packed.read_fresh later fun empty => by
      cases empty
      cases between rfl
      have room := packed.room
      cases stale with
      | nil =>
        rw [append_nil, length_nil, length_nil] at room
        omega
      | cons slot stale =>
        have held : map.front = some slot := packed.front_stale
        refine ⟨rfl, slot, stale, rfl, fun same => fresh ⟨packed.size, ?_⟩⟩
        rw [held, ← same]
        rfl
    simp [FlatMap.erase, inside, index, read, different]

end Packed

namespace Stores

variable {K V : Type} [LinearOrder K] {ordering : SortOrder} {map : FlatMap K V ordering} {front back : Entries K V}
  {stale : List (Node K V)} {key : K}

theorem searchable {entries : Entries K V} (stores : Stores map entries stale) (key : K) : Searchable map key := by
  have room := stores.room
  have bound := stores.bound
  have size := stores.size
  exact searchable_of_size (by omega) key

theorem push_found {old : V} (stores : Stores map (front ++ ⟨key, old⟩ :: back) stale)
    (passed : ∀ entry ∈ front, before ordering entry.1 key) (later : ∀ entry ∈ back, before ordering key entry.1) (value : V) :
    map.push key value = some (map, some front.length) :=
  stores.packed.push_found (fun _ => stores.searchable key) passed later value

omit [LinearOrder K] in
theorem assign_eq {old : V} (stores : Stores map (front ++ ⟨key, old⟩ :: back) stale) (value : V) :
    ∃ next, map.assign front.length value = some next ∧ Stores next (front ++ ⟨key, value⟩ :: back) stale := by
  obtain ⟨next, written, packed, capacity⟩ := stores.packed.assign_eq value
  exact ⟨next, written, packed.stores (capacity ▸ stores.bound)⟩

theorem push_behind {slot : Node K V} (stores : Stores map front (slot :: stale)) (nonempty : front ≠ [])
    (passed : ∀ entry ∈ front, before ordering entry.1 key) (value : V) :
    ∃ next, map.push key value = some (next, some front.length) ∧ Stores next (front ++ [⟨key, value⟩]) stale := by
  obtain ⟨next, pushed, packed, capacity⟩ := stores.packed.push_behind nonempty passed value
  exact ⟨next, pushed, packed.stores (capacity ▸ stores.bound)⟩

theorem push_between {slot : Node K V} (stores : Stores map (front ++ back) (slot :: stale))
    (passed : ∀ entry ∈ front, before ordering entry.1 key) (later : ∀ entry ∈ back, before ordering key entry.1)
    (between : back = [] → front = [] ∧ slot.key ≠ key) (value : V) :
    ∃ next, map.push key value = some (next, some front.length) ∧ Stores next (front ++ ⟨key, value⟩ :: back) stale := by
  obtain ⟨next, pushed, packed, capacity⟩ :=
    stores.packed.push_between (fun _ => stores.searchable key) passed later between value
  exact ⟨next, pushed, packed.stores (capacity ▸ stores.bound)⟩

theorem erase_found {old : V} (stores : Stores map (front ++ ⟨key, old⟩ :: back) stale)
    (passed : ∀ entry ∈ front, before ordering entry.1 key) (later : ∀ entry ∈ back, before ordering key entry.1) :
    ∃ next last, map.erase key = some (next, true) ∧ Stores next (front ++ back) (last :: stale) ∧
      (front ++ back = [] → last.key = key) := by
  obtain ⟨next, last, erased, packed, capacity, left⟩ :=
    stores.packed.erase_found (fun _ => stores.searchable key) passed later
  exact ⟨next, last, erased, packed.stores (capacity ▸ stores.bound), left⟩

theorem erase_absent (stores : Stores map (front ++ back) stale) (nonempty : 0 < map.capacity)
    (passed : ∀ entry ∈ front, before ordering entry.1 key) (later : ∀ entry ∈ back, before ordering key entry.1)
    (fresh : ¬ Stale map key) : map.erase key = some (map, false) :=
  stores.packed.erase_absent nonempty (fun _ => stores.searchable key) passed later fresh

end Stores
end FinanceTech.Proofs.FlatMapSlots
