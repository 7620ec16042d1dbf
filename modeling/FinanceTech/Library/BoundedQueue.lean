import FinanceTech.Library.RingWindow

/-! A queue of bounded length whose oldest item goes when one more than fits is
put, and a ring of slots that stores such a queue from some position on. -/

namespace FinanceTech.Library.BoundedQueue
open List RingWindow

universe u

variable {α : Type u}

/-- The last of the items, as many as fit. -/
def put (capacity : Nat) (queue : List α) (item : α) : List α := (queue ++ [item]).drop (queue.length + 1 - capacity)

/-- A queue is put an item or asked for its oldest. -/
inductive Call (α : Type u) where
  | put (item : α)
  | get
deriving DecidableEq, Repr

/-- The queue, and what every `get` so far has returned. -/
def step (capacity : Nat) (state : List α × List (Option α)) : Call α → List α × List (Option α)
  | .put item => (put capacity state.1 item, state.2)
  | .get => (state.1.tail, state.2 ++ [state.1.head?])

theorem length_put {capacity : Nat} {queue : List α} (fits : queue.length ≤ capacity) (positive : 0 < capacity) (item : α) :
    (put capacity queue item).length = if queue.length = capacity then capacity else queue.length + 1 := by
  rw [put, length_drop, length_append, length_singleton]
  split <;> omega

/-- The oldest item of a full queue goes, and the next one is the oldest. -/
theorem head?_put {capacity : Nat} {queue : List α} (full : queue.length = capacity) (several : 1 < capacity) (item : α) :
    (put capacity queue item).head? = queue[1]? := by
  rw [put, full, Nat.add_sub_cancel_left, head?_drop]
  exact getElem?_append_left (full ▸ several)

/-- The slots hold the items of a queue from a position on. -/
structure Stores (capacity : Nat) (slots queue : List α) (first : Nat) : Prop where
  allocated : slots.length = capacity
  fits : queue.length ≤ capacity
  window : ∀ index item, queue[index]? = some item → slots[(first + index) % capacity]? = some item

variable {capacity first : Nat} {slots queue : List α} {item : α}

theorem Stores.empty (allocated : slots.length = capacity) (first : Nat) : Stores capacity slots [] first :=
  ⟨allocated, Nat.zero_le _, fun _ _ present => nomatch present⟩

/-- An item is put behind the last, over the oldest when there is no room. -/
theorem Stores.put (stores : Stores capacity slots queue first) (positive : 0 < capacity) (item : α) :
    Stores capacity (slots.set ((first + queue.length) % capacity) item) (put capacity queue item)
      (first + (queue.length + 1 - capacity)) := by
  have fits := stores.fits
  refine ⟨length_set.trans stores.allocated, ?_, fun index held present => ?_⟩
  · rw [length_put fits positive]
    split <;> omega
  · rw [BoundedQueue.put, getElem?_drop] at present
    rw [Nat.add_assoc]
    obtain ⟨place, counted⟩ : ∃ place, place = queue.length + 1 - capacity + index := ⟨_, rfl⟩
    rw [← counted] at present ⊢
    rcases Nat.lt_or_ge place queue.length with before | last
    · rw [getElem?_append_left before] at present
      rw [getElem?_set_ne (slot_ne (Nat.add_lt_add_left before first) (by omega)).symm]
      exact stores.window place held present
    · have inside := (List.getElem?_eq_some_iff.mp present).1
      rw [length_append, length_singleton] at inside
      obtain rfl : place = queue.length := by omega
      rw [getElem?_concat_length] at present
      rw [← Option.some.inj present, getElem?_set_self]
      rw [stores.allocated]
      exact Nat.mod_lt _ positive

/-- The oldest item is in its slot, and what is left there makes no difference. -/
theorem Stores.get (stores : Stores capacity slots (item :: queue) first) (left : α) :
    slots[first % capacity]? = some item ∧ Stores capacity (slots.set (first % capacity) left) queue (first + 1) := by
  have fits := stores.fits
  rw [length_cons] at fits
  refine ⟨stores.window 0 item rfl, length_set.trans stores.allocated, by omega, fun index held present => ?_⟩
  have inside := (List.getElem?_eq_some_iff.mp present).1
  rw [getElem?_set_ne (slot_ne (by omega) (by omega)), Nat.add_assoc, Nat.add_comm 1 index]
  exact stores.window (index + 1) held present

end FinanceTech.Library.BoundedQueue
