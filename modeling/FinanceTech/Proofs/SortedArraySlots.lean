import FinanceTech.BoundedCollections
import FinanceTech.Proofs.FlatMapSlots

/-! The slots of the sorted array. An item that is above the last one goes to the
end whatever the order of the array, and any other one is compared with the slot
at its place even when that slot is not live. -/

namespace FinanceTech.Proofs.SortedArraySlots
open List Library MarketDepth StaticSortedArray
open FlatMapSlots (uint32_of_lt uint32_pred)

section Storage

variable {Ty : Type} {ordering : SortOrder}

/-- The live slots hold the items, and the others are stale. -/
structure Packed (array : SortedArray Ty ordering) (live stale : List Ty) : Prop where
  data : array.data = live ++ stale
  size : array.size = live.length
  allocated : array.data.length = array.capacity
  bound : array.capacity < 2 ^ 32

variable {array : SortedArray Ty ordering} {live stale : List Ty}

theorem Packed.room (packed : Packed array live stale) : live.length + stale.length = array.capacity := by
  rw [← packed.allocated, packed.data, length_append]

theorem Packed.items_eq (packed : Packed array live stale) : array.items = live := by
  rw [SortedArray.items, packed.data, packed.size, take_left]

theorem new_packed [Inhabited Ty] {capacity : Nat} (bound : capacity < 2 ^ 32) :
    Packed (SortedArray.new capacity : SortedArray Ty ordering) [] (replicate capacity default) :=
  ⟨rfl, rfl, length_replicate, bound⟩

end Storage

variable {Ty : Type} [LinearOrder Ty] {ordering : SortOrder} {array : SortedArray Ty ordering} {live front back stale : List Ty}
  {item last slot : Ty}

private theorem compare_eq (ordering : SortOrder) (first second : Ty) :
    SortedArray.compare ordering first second = FlatMap.compare ordering first second := rfl

/-- A binary search for the item looks at no slot from `2 ^ 31` on, so the sums of
its indices do not overflow. -/
def Searchable (array : SortedArray Ty ordering) (item : Ty) : Prop :=
  ∀ probe ∈ Slots.probes (fun held => SortedArray.compare ordering item held) array.data (array.size + 1) 0 array.size, probe < 2 ^ 31

instance (array : SortedArray Ty ordering) (item : Ty) : Decidable (Searchable array item) :=
  inferInstanceAs (Decidable (∀ probe ∈ _, _))

theorem searchable_of_size (small : array.size ≤ 2 ^ 31) (item : Ty) : Searchable array item :=
  fun probe member => (Slots.probes_lt _ _ _ _ _ probe member).trans_le small

namespace Packed

theorem isAbove_nil (packed : Packed array [] stale) (item : Ty) : array.isAbove item = some false := by
  rw [SortedArray.isAbove, packed.size, length_nil, if_neg (Nat.lt_irrefl 0)]

theorem isAbove_concat (packed : Packed array (front ++ [last]) stale) (item : Ty) : array.isAbove item = some (decide (item > last)) := by
  have size := packed.size
  have room := packed.room
  have bound := packed.bound
  rw [length_append, length_singleton] at size room
  have place : uint32 (array.size + (2 ^ 32 - 1)) = front.length := by
    rw [size]
    exact uint32_pred (by omega)
  have read : array.data[front.length]? = some last := by
    rw [packed.data, append_assoc]
    exact Slots.getElem?_middle _ _ _
  rw [SortedArray.isAbove, if_pos (by omega), place, read, Option.map_some]

theorem findInsertIndex_eq (packed : Packed array (front ++ back) stale) (searchable : Searchable array item)
    (passed : ∀ held ∈ front, before ordering held item) (stopped : ∀ held ∈ back, ¬ before ordering held item) :
    array.findInsertIndex item = some front.length := by
  have size := packed.size
  have agrees : ∀ left right, Slots.middle left right < 2 ^ 31 → uint32 (left + right) / 2 = Slots.middle left right := by
    intro left right below
    unfold Slots.middle at below ⊢
    rw [uint32_of_lt (by omega)]
  unfold SortedArray.findInsertIndex
  rw [Slots.search_agrees agrees searchable, packed.data]
  apply Slots.search_finds stale
  · intro left right apart bounded
    unfold Slots.middle
    omega
  · exact fun held member => (compare_eq ordering _ _).trans (FlatMapSlots.compare_eq_false.mpr (passed held member))
  · exact fun held member => (compare_eq ordering _ _).trans (FlatMapSlots.compare_eq_true.mpr (stopped held member))
  · exact Nat.zero_le _
  · simp [size]
  · simp [size]
  · omega

theorem push_above_full (packed : Packed array live []) (above : array.isAbove item = some true) :
    array.push item = some (array, false) := by
  have full : array.size = array.capacity := by
    have room := packed.room
    rw [length_nil, Nat.add_zero] at room
    exact packed.size.trans room
  simp only [SortedArray.push, above, Option.bind_eq_bind, Option.bind_some, if_true, if_pos full]

/-- The item becomes the last one. -/
theorem push_above_room (packed : Packed array live (slot :: stale)) (above : array.isAbove item = some true) :
    ∃ next, array.push item = some (next, true) ∧ Packed next (live ++ [item]) stale ∧ next.capacity = array.capacity := by
  have size := packed.size
  have room := packed.room
  have bound := packed.bound
  rw [length_cons] at room
  have below : array.size ≠ array.capacity := by omega
  have wide : uint32 (array.size + 1) = array.size + 1 := uint32_of_lt (by omega)
  have stored : Slots.store array.data array.size item = some (live ++ [item] ++ stale) := by
    rw [packed.data, size, append_assoc]
    exact Slots.store_middle live stale slot item
  refine ⟨⟨array.size + 1, array.capacity, live ++ [item] ++ stale⟩, ?_, ⟨rfl, ?_, ?_, bound⟩, rfl⟩
  · simp only [SortedArray.push, above, Option.bind_eq_bind, Option.bind_some, if_true, if_neg below, stored, wide]
  · rw [length_append, length_singleton, size]
  · exact (Slots.store_length stored).trans packed.allocated

theorem push_same (above : array.isAbove item = some false) (index : array.findInsertIndex item = some front.length)
    (read : array.data[front.length]? = some item) : array.push item = some (array, false) := by
  by_cases full : array.capacity = front.length
  · simp only [SortedArray.push, above, index, Option.bind_eq_bind, Option.bind_some, Bool.false_eq_true, if_false, if_pos full]
  · simp only [SortedArray.push, above, index, read, Option.bind_eq_bind, Option.bind_some, Bool.false_eq_true, if_false, if_neg full,
      if_true]

theorem push_refused (packed : Packed array live []) (above : array.isAbove item = some false) (searchable : Searchable array item)
    (passed : ∀ held ∈ live, before ordering held item) : array.push item = some (array, false) := by
  have whole : Packed array (live ++ []) [] := (append_nil live).symm ▸ packed
  have index := whole.findInsertIndex_eq searchable passed fun _ member => absurd member not_mem_nil
  have full : array.capacity = live.length := packed.room.symm
  simp only [SortedArray.push, above, index, Option.bind_eq_bind, Option.bind_some, Bool.false_eq_true, if_false, if_pos full]

/-- An item takes its place, and the slot behind the shifted ones is given up. -/
theorem push_inserts (data : array.data = front ++ back ++ slot :: stale) (allocated : array.data.length = array.capacity)
    (bound : array.capacity < 2 ^ 32) (above : array.isAbove item = some false) (index : array.findInsertIndex item = some front.length)
    (grown : (if array.capacity = array.size then array.size else uint32 (array.size + 1)) = front.length + back.length + 1)
    (fresh : array.data[front.length]? ≠ some item) :
    ∃ next, array.push item = some (next, true) ∧ Packed next (front ++ item :: back) stale ∧ next.capacity = array.capacity := by
  have room := congrArg List.length data
  rw [allocated] at room
  simp only [length_append, length_cons] at room
  have inside : array.capacity ≠ front.length := by omega
  have start : uint32 (front.length + back.length + 1 + (2 ^ 32 - 1)) = front.length + back.length := uint32_pred (by omega)
  have opened := Slots.insert_opens front back stale slot item
  rw [← data, Option.bind_eq_some_iff] at opened
  obtain ⟨shifted, moved, stored⟩ := opened
  obtain ⟨found, read⟩ : ∃ found, array.data[front.length]? = some found := ⟨_, getElem?_eq_getElem (by omega)⟩
  have different : item ≠ found := fun same => fresh (same ▸ read)
  refine ⟨⟨front.length + back.length + 1, array.capacity, front ++ item :: (back ++ stale)⟩, ?_, ⟨?_, ?_, ?_, bound⟩, rfl⟩
  · simp only [SortedArray.push, above, index, read, grown, start, moved, stored, Option.bind_eq_bind, Option.bind_some,
      Bool.false_eq_true, if_false, if_neg inside, if_neg different]
  · simp
  · simp only [length_append, length_cons]
    omega
  · simp only [length_append, length_cons]
    omega

/-- A new item takes its place, when the slot it is compared with differs. -/
theorem push_between (packed : Packed array (front ++ back) (slot :: stale)) (above : array.isAbove item = some false)
    (searchable : Searchable array item) (passed : ∀ held ∈ front, before ordering held item)
    (later : ∀ held ∈ back, before ordering item held) (fresh : back = [] → item ≠ slot) :
    ∃ next, array.push item = some (next, true) ∧ Packed next (front ++ item :: back) stale ∧ next.capacity = array.capacity := by
  have size := packed.size
  have room := packed.room
  have bound := packed.bound
  rw [length_append] at size room
  rw [length_cons] at room
  have index := packed.findInsertIndex_eq searchable passed fun held member => asymm (later held member)
  refine push_inserts packed.data packed.allocated bound above index ?_ ?_
  · rw [if_neg (by omega), uint32_of_lt (by omega), size]
  · rw [packed.data]
    cases back with
    | nil =>
      rw [append_nil, Slots.getElem?_middle]
      exact fun same => fresh rfl (Option.some.inj same).symm
    | cons next back =>
      rw [append_assoc, cons_append, Slots.getElem?_middle]
      exact fun same => irrefl _ (Option.some.inj same ▸ later next mem_cons_self)

theorem push_evicts (packed : Packed array (front ++ (back ++ [last])) []) (above : array.isAbove item = some false)
    (searchable : Searchable array item) (passed : ∀ held ∈ front, before ordering held item)
    (later : ∀ held ∈ back ++ [last], before ordering item held) :
    ∃ next, array.push item = some (next, true) ∧ Packed next (front ++ item :: back) [] ∧ next.capacity = array.capacity := by
  have size := packed.size
  have room := packed.room
  simp only [length_append, length_singleton, length_nil] at size room
  have index := packed.findInsertIndex_eq searchable passed fun held member => asymm (later held member)
  have data : array.data = front ++ back ++ last :: [] := by simp [packed.data]
  refine push_inserts data packed.allocated packed.bound above index ?_ ?_
  · rw [if_pos (by omega), size, Nat.add_assoc]
  · rw [data, append_assoc]
    cases back with
    | nil =>
      rw [nil_append, Slots.getElem?_middle]
      exact fun same => irrefl _ (Option.some.inj same ▸ later last mem_cons_self)
    | cons next back =>
      rw [cons_append, Slots.getElem?_middle]
      exact fun same => irrefl _ (Option.some.inj same ▸ later next mem_cons_self)

end Packed
end FinanceTech.Proofs.SortedArraySlots
