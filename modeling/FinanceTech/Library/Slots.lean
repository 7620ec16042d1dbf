import Mathlib.Data.List.Basic
import Mathlib.Data.List.Induction

/-! A fixed array of which only the first places are in use. The other places
keep what was last written there, and an access outside the array fails. The
loops are those of a sorted array: a binary search for an item's place, and the
two shifts that open and close a place. -/

namespace FinanceTech.Library.Slots
open List

universe u

variable {α : Type u}

def store (slots : List α) (index : Nat) (item : α) : Option (List α) :=
  if index < slots.length then some (slots.set index item) else none

/-- Move every item from `stop` to below `index` one place up. -/
def shiftUp (stop : Nat) : Nat → List α → Option (List α)
  | 0, slots => some slots
  | index + 1, slots =>
    if stop < index + 1 then
      slots[index]?.bind fun item => (store slots (index + 1) item).bind (shiftUp stop index)
    else some slots

/-- Move `count` items, from `index` upwards, one place down. -/
def shiftDown : Nat → Nat → List α → Option (List α)
  | 0, _, slots => some slots
  | count + 1, index, slots =>
    slots[index]?.bind fun item => (store slots (index - 1) item).bind (shiftDown count (index + 1))

/-- A binary search for the first place whose item `stops`. -/
def search (midpoint : Nat → Nat → Nat) (stops : α → Bool) (slots : List α) : Nat → Nat → Nat → Option Nat
  | 0, _, _ => none
  | fuel + 1, left, right =>
    if left < right then
      slots[midpoint left right]?.bind fun item =>
        if stops item then search midpoint stops slots fuel left (midpoint left right)
        else search midpoint stops slots fuel (midpoint left right + 1) right
    else some left

/-- The middle of two indices whose sum does not overflow. -/
def middle (left right : Nat) : Nat := (left + right) / 2

/-- A binary search that ends at the first item it looks at that is `wanted`, and
finds none when there is no place left. -/
def find (wanted stops : α → Bool) (slots : List α) : Nat → Nat → Nat → Option (Option Nat)
  | 0, _, _ => none
  | fuel + 1, left, right =>
    if left < right then
      slots[middle left right]?.bind fun item =>
        if wanted item then some (some (middle left right))
        else if stops item then find wanted stops slots fuel left (middle left right)
        else find wanted stops slots fuel (middle left right + 1) right
    else some none

/-- The places that a binary search looks at when no sum overflows. -/
def probes (stops : α → Bool) (slots : List α) : Nat → Nat → Nat → List Nat
  | 0, _, _ => []
  | fuel + 1, left, right =>
    if left < right then
      middle left right :: slots[middle left right]?.elim [] fun item =>
        if stops item then probes stops slots fuel left (middle left right)
        else probes stops slots fuel (middle left right + 1) right
    else []

theorem getElem?_middle (front rest : List α) (item : α) : (front ++ item :: rest)[front.length]? = some item := by
  rw [getElem?_append_right (Nat.le_refl _), Nat.sub_self, getElem?_cons_zero]

theorem store_middle (front rest : List α) (old item : α) :
    store (front ++ old :: rest) front.length item = some (front ++ item :: rest) := by
  have inside : front.length < (front ++ old :: rest).length := by simp
  exact (if_pos inside).trans (congrArg some (by simp))

theorem store_length {slots next : List α} {index : Nat} {item : α} (stored : store slots index item = some next) :
    next.length = slots.length := by
  unfold store at stored
  split at stored
  · cases stored
    exact length_set
  · cases stored

/-- A place opens after `front` when the array has a place behind `back`. -/
theorem shiftUp_opens (front back stale : List α) (last : α) :
    ∃ hole, shiftUp front.length (front.length + back.length) (front ++ back ++ last :: stale) =
      some (front ++ hole :: (back ++ stale)) := by
  induction back using List.reverseRecOn generalizing last stale with
  | nil =>
    refine ⟨last, ?_⟩
    rw [length_nil, Nat.add_zero, append_nil, nil_append]
    cases front with
    | nil => rfl
    | cons head rest => exact if_neg (Nat.lt_irrefl _)
  | append_singleton back item ih =>
    obtain ⟨hole, opened⟩ := ih (item :: stale) item
    refine ⟨hole, ?_⟩
    have place : front.length + (back ++ [item]).length = (front ++ back).length + 1 := by
      rw [length_append, length_append, length_singleton, Nat.add_assoc]
    have read : (front ++ (back ++ [item]) ++ last :: stale)[(front ++ back).length]? = some item := by simp
    have stored : store (front ++ (back ++ [item]) ++ last :: stale) ((front ++ back).length + 1) item =
        some (front ++ back ++ item :: item :: stale) := by
      have middle := store_middle (front ++ back ++ [item]) stale last item
      simpa [Nat.add_assoc] using middle
    have inside : front.length < (front ++ back).length + 1 := by
      rw [length_append]
      omega
    rw [place, shiftUp, if_pos inside, read, Option.bind_some, stored, Option.bind_some]
    simpa using opened

/-- An item goes to the place after `front`, and the ones behind it move up, the
last over what was in its way. -/
theorem insert_opens (front back stale : List α) (last item : α) :
    ((shiftUp front.length (front.length + back.length) (front ++ back ++ last :: stale)).bind fun slots =>
      store slots front.length item) = some (front ++ item :: (back ++ stale)) := by
  obtain ⟨hole, opened⟩ := shiftUp_opens front back stale last
  rw [opened, Option.bind_some]
  exact store_middle front (back ++ stale) hole item

/-- The place after `front` closes, and what was last stays behind the rest. -/
theorem shiftDown_closes (front back stale : List α) (old : α) :
    ∃ last, shiftDown back.length (front.length + 1) (front ++ old :: (back ++ stale)) =
      some (front ++ back ++ last :: stale) ∧ (back = [] → last = old) := by
  induction back generalizing front old with
  | nil => exact ⟨old, by simp [shiftDown], fun _ => rfl⟩
  | cons item back ih =>
    obtain ⟨last, closed, -⟩ := ih (front ++ [item]) item
    refine ⟨last, ?_, by simp⟩
    have read : (front ++ old :: (item :: back ++ stale))[front.length + 1]? = some item := by simp
    have stored := store_middle front (item :: back ++ stale) old item
    rw [length_cons, shiftDown, read, Option.bind_some, Nat.add_sub_cancel, stored]
    simpa using closed

/-- The search finds the place between the items that do not stop it and those
that do. -/
theorem search_finds {midpoint : Nat → Nat → Nat} {stops : α → Bool} {front back : List α} (stale : List α)
    (within : ∀ left right, left < right → right ≤ (front ++ back).length →
      left ≤ midpoint left right ∧ midpoint left right < right)
    (passed : ∀ item ∈ front, stops item = false) (stopped : ∀ item ∈ back, stops item = true)
    {fuel left right : Nat} (below : left ≤ front.length) (above : front.length ≤ right)
    (bounded : right ≤ (front ++ back).length) (enough : right - left < fuel) :
    search midpoint stops (front ++ back ++ stale) fuel left right = some front.length := by
  induction fuel generalizing left right with
  | zero => omega
  | succ fuel ih =>
    rw [search]
    split
    next apart =>
      obtain ⟨lower, upper⟩ := within left right apart bounded
      have inside : midpoint left right < (front ++ back).length := by omega
      rw [getElem?_append_left inside]
      by_cases early : midpoint left right < front.length
      · have item : stops front[midpoint left right] = false := passed _ (getElem_mem early)
        rw [getElem?_append_left early, getElem?_eq_getElem early, Option.bind_some, item]
        exact ih (by omega) above bounded (by omega)
      · have late : midpoint left right - front.length < back.length := by rw [length_append] at inside; omega
        have item : stops back[midpoint left right - front.length] = true := stopped _ (getElem_mem late)
        rw [getElem?_append_right (by omega), getElem?_eq_getElem late, Option.bind_some, item]
        exact ih below (by omega) (by omega) (by omega)
    next met => exact congrArg some (by omega)

/-! ### Accesses within the array -/

theorem split_window {slots : List α} {place size : Nat} (ordered : place ≤ size) (room : size < slots.length) :
    ∃ front back last stale, slots = front ++ back ++ last :: stale ∧ front.length = place ∧ front.length + back.length = size := by
  refine ⟨slots.take place, (slots.drop place).take (size - place), slots[size], slots.drop (size + 1), ?_, ?_, ?_⟩
  · have rest : slots.drop size = (slots.drop place).drop (size - place) := by rw [drop_drop, Nat.add_sub_cancel' ordered]
    rw [← drop_eq_getElem_cons room, append_assoc, rest, take_append_drop, take_append_drop]
  · rw [length_take]
    omega
  · rw [length_take, length_take, length_drop]
    omega

/-- An item fits in whatever the slots hold, as long as one more than are in use
does. -/
theorem insert_within {slots : List α} {place size : Nat} (ordered : place ≤ size) (room : size < slots.length) (item : α) :
    ∃ next, ((shiftUp place size slots).bind fun slots => store slots place item) = some next ∧ next.length = slots.length := by
  obtain ⟨front, back, last, stale, rfl, rfl, rfl⟩ := split_window ordered room
  refine ⟨_, insert_opens front back stale last item, ?_⟩
  simp only [length_append, length_cons]
  omega

theorem insert_outside {slots : List α} {place size : Nat} (ordered : place ≤ size) (full : slots.length ≤ size) (item : α) :
    ((shiftUp place size slots).bind fun slots => store slots place item) = none := by
  rcases Nat.eq_or_lt_of_le ordered with rfl | before
  · have still : shiftUp place place slots = some slots := by
      cases place with
      | zero => rfl
      | succ place => exact if_neg (Nat.lt_irrefl _)
    rw [still, Option.bind_some]
    exact if_neg (Nat.not_lt.mpr full)
  · obtain ⟨last, rfl⟩ : ∃ last, size = last + 1 := ⟨size - 1, by omega⟩
    rw [shiftUp, if_pos before]
    cases slots[last]? with
    | none => rfl
    | some moved =>
      have outside : store slots (last + 1) moved = none := if_neg (Nat.not_lt.mpr full)
      rw [Option.bind_some, outside]
      rfl

theorem shiftDown_within {slots : List α} {count index : Nat} (behind : 0 < index) (bounded : index + count ≤ slots.length) :
    ∃ next, shiftDown count index slots = some next ∧ next.length = slots.length := by
  induction count generalizing index slots with
  | zero => exact ⟨slots, rfl, rfl⟩
  | succ count ih =>
    have inside : index < slots.length := by omega
    have stored : store slots (index - 1) slots[index] = some (slots.set (index - 1) slots[index]) := if_pos (by omega)
    rw [shiftDown, getElem?_eq_getElem inside, Option.bind_some, stored, Option.bind_some]
    have length : (slots.set (index - 1) slots[index]).length = slots.length := length_set
    have remains : index + 1 + count ≤ (slots.set (index - 1) slots[index]).length := by omega
    obtain ⟨next, closed, same⟩ := ih (Nat.succ_pos index) remains
    exact ⟨next, closed, same.trans length⟩

theorem middle_within {left right : Nat} (apart : left < right) : left ≤ middle left right ∧ middle left right < right := by
  unfold middle
  omega

/-- Whatever the slots hold, a search stays between its bounds. -/
theorem search_within {stops : α → Bool} {slots : List α} {fuel left right : Nat} (ordered : left ≤ right)
    (bounded : right ≤ slots.length) (enough : right - left < fuel) :
    ∃ place, search middle stops slots fuel left right = some place ∧ place ≤ right := by
  induction fuel generalizing left right with
  | zero => omega
  | succ fuel ih =>
    rw [search]
    split
    next apart =>
      obtain ⟨lower, upper⟩ := middle_within apart
      rw [getElem?_eq_getElem (Nat.lt_of_lt_of_le upper bounded), Option.bind_some]
      split
      · obtain ⟨place, found, below⟩ := ih lower (by omega) (by omega)
        exact ⟨place, found, Nat.le_trans below (Nat.le_of_lt upper)⟩
      · exact ih (by omega) bounded (by omega)
    next met => exact ⟨left, rfl, ordered⟩

theorem find_within {wanted stops : α → Bool} {slots : List α} {fuel left right : Nat} (bounded : right ≤ slots.length)
    (enough : right - left < fuel) :
    ∃ found, find wanted stops slots fuel left right = some found ∧ ∀ place, found = some place → place < right := by
  induction fuel generalizing left right with
  | zero => omega
  | succ fuel ih =>
    rw [find]
    split
    next apart =>
      obtain ⟨lower, upper⟩ := middle_within apart
      rw [getElem?_eq_getElem (Nat.lt_of_lt_of_le upper bounded), Option.bind_some]
      split
      · refine ⟨_, rfl, fun place same => ?_⟩
        exact Option.some.inj same ▸ upper
      · split
        · have nearer : middle left right - left < fuel := by omega
          obtain ⟨found, ended, below⟩ := ih (Nat.le_trans (Nat.le_of_lt upper) bounded) nearer
          exact ⟨found, ended, fun place same => Nat.lt_trans (below place same) upper⟩
        · exact ih bounded (by omega)
    next met => exact ⟨none, rfl, fun place same => nomatch same⟩

/-- A place is one of those in front, that of the one item or one of those
behind. -/
theorem read_around {front back : List α} (here : Option α) {place : Nat} (inside : place < (front ++ here.toList ++ back).length) :
    (place < front.length ∧ ∃ item ∈ front, (front ++ here.toList ++ back)[place]? = some item) ∨
      (place = front.length ∧ ∃ item, here = some item ∧ (front ++ here.toList ++ back)[place]? = some item) ∨
      ((front ++ here.toList).length ≤ place ∧ ∃ item ∈ back, (front ++ here.toList ++ back)[place]? = some item) := by
  rcases Nat.lt_or_ge place (front ++ here.toList).length with within | beyond
  · rw [getElem?_append_left within]
    rcases Nat.lt_or_ge place front.length with early | late
    · refine .inl ⟨early, front[place], getElem_mem early, ?_⟩
      rw [getElem?_append_left early, getElem?_eq_getElem early]
    · refine .inr (.inl ?_)
      cases here with
      | none =>
        rw [Option.toList_none, append_nil] at within
        omega
      | some item =>
        rw [Option.toList_some, length_append, length_singleton] at within
        obtain rfl : place = front.length := by omega
        exact ⟨rfl, item, rfl, getElem?_concat_length⟩
  · have late : place - (front ++ here.toList).length < back.length := by
      rw [length_append] at inside
      omega
    refine .inr (.inr ⟨beyond, _, getElem_mem late, ?_⟩)
    rw [getElem?_append_right beyond, getElem?_eq_getElem late]

/-- The search finds the one item that is wanted, when it stands between those
that do not stop it and those that do. -/
theorem find_finds {wanted stops : α → Bool} {front back : List α} (here : Option α) (stale : List α)
    (passed : ∀ item ∈ front, wanted item = false ∧ stops item = false) (met : ∀ item ∈ here, wanted item = true)
    (stopped : ∀ item ∈ back, wanted item = false ∧ stops item = true)
    {fuel left right : Nat} (below : left ≤ front.length) (above : (front ++ here.toList).length ≤ right)
    (bounded : right ≤ (front ++ here.toList ++ back).length) (enough : right - left < fuel) :
    find wanted stops (front ++ here.toList ++ back ++ stale) fuel left right = some (here.map fun _ => front.length) := by
  induction fuel generalizing left right with
  | zero => omega
  | succ fuel ih =>
    rw [find]
    split
    next apart =>
      obtain ⟨lower, upper⟩ := middle_within apart
      have inside : middle left right < (front ++ here.toList ++ back).length := by omega
      rw [getElem?_append_left inside]
      rcases read_around here inside with ⟨early, item, ahead, read⟩ | ⟨place, item, rfl, read⟩ | ⟨late, item, behind, read⟩
      · obtain ⟨unwanted, passes⟩ := passed item ahead
        rw [read, Option.bind_some, unwanted, passes]
        exact ih (Nat.succ_le_of_lt early) above bounded (by omega)
      · rw [read, Option.bind_some, met item rfl, if_pos rfl, place]
        rfl
      · obtain ⟨unwanted, stops⟩ := stopped item behind
        rw [read, Option.bind_some, unwanted, stops]
        exact ih below late (Nat.le_trans (Nat.le_of_lt upper) bounded) (by omega)
    next ended =>
      have nothing : here = none := by
        rw [length_append] at above
        cases here with
        | none => rfl
        | some item =>
          rw [Option.toList_some, length_singleton] at above
          omega
      rw [nothing]
      rfl

/-! ### Sums of indices that overflow -/

section Overflow

variable {midpoint : Nat → Nat → Nat} {stops : α → Bool} {slots : List α} {limit : Nat}

theorem probes_lt (stops : α → Bool) (slots : List α) (fuel left right : Nat) :
    ∀ probe ∈ probes stops slots fuel left right, probe < right := by
  induction fuel generalizing left right with
  | zero => exact fun _ member => absurd member not_mem_nil
  | succ fuel ih =>
    intro probe member
    rw [probes] at member
    split at member
    next apart =>
      have below : middle left right < right := by
        unfold middle
        omega
      rcases mem_cons.mp member with rfl | later
      · exact below
      · cases read : slots[middle left right]? with
        | none =>
          rw [read] at later
          exact absurd later not_mem_nil
        | some item =>
          rw [read, Option.elim_some] at later
          split at later
          · exact Nat.lt_trans (ih _ _ probe later) below
          · exact ih _ _ probe later
    next => exact absurd member not_mem_nil

/-- Below a limit the middles are right, and the search does not leave it. -/
theorem search_agrees (agrees : ∀ left right, middle left right < limit → midpoint left right = middle left right)
    {fuel left right : Nat} (below : ∀ probe ∈ probes stops slots fuel left right, probe < limit) :
    search midpoint stops slots fuel left right = search middle stops slots fuel left right := by
  induction fuel generalizing left right with
  | zero => rfl
  | succ fuel ih =>
    rw [probes] at below
    rw [search, search]
    split
    next apart =>
      rw [if_pos apart] at below
      obtain ⟨first, later⟩ := forall_mem_cons.mp below
      rw [agrees left right first]
      cases read : slots[middle left right]? with
      | none => rfl
      | some item =>
        rw [read, Option.elim_some] at later
        rw [Option.bind_some, Option.bind_some]
        split
        next stop =>
          rw [if_pos stop] at later
          exact ih later
        next pass =>
          rw [if_neg pass] at later
          exact ih later
    next => rfl

/-- When every middle is below a limit and no item there stops the search, it
never gets to the places from the limit on. -/
theorem search_never (below : ∀ left right, midpoint left right < limit)
    (passed : ∀ (index : Nat) item, index < limit → slots[index]? = some item → stops item = false)
    {left right : Nat} (start : left ≤ limit) (beyond : limit < right) (fuel : Nat) :
    search midpoint stops slots fuel left right = none := by
  induction fuel generalizing left with
  | zero => rfl
  | succ fuel ih =>
    have place := below left right
    rw [search, if_pos (Nat.lt_of_le_of_lt start beyond)]
    cases read : slots[midpoint left right]? with
    | none => rfl
    | some item =>
      rw [Option.bind_some, passed _ item place read]
      exact ih place

end Overflow

end FinanceTech.Library.Slots
