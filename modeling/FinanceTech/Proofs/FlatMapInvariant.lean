import FinanceTech.Proofs.FlatMapBest
import Mathlib.Algebra.Order.Ring.Int

/-! A flat map under any pushes and erases. It stays sorted within its capacity
and erases exactly the keys it holds, except that an empty map still takes the
key in its first slot for one of its own. -/

namespace FinanceTech.Proofs.FlatMapInvariant
open List Library SortedMap MarketDepth FlatMapSlots FlatMapBest

variable {K V : Type} [LinearOrder K] {ordering : SortOrder}

inductive Call (K V : Type) where
  | push (key : K) (value : V)
  | erase (key : K)
deriving DecidableEq, Repr

def step (map : FlatMap K V ordering) : Call K V → Option (FlatMap K V ordering)
  | .push key value => (map.push key value).map Prod.fst
  | .erase key => (map.erase key).map Prod.fst

/-- A push returns; an erase tells whether the key was there, takes away exactly
that key, and otherwise leaves the map as it was. -/
def Correct (map : FlatMap K V ordering) : Call K V → Prop
  | .push key value => ∃ next result, map.push key value = some (next, result)
  | .erase key => ∃ next result, map.erase key = some (next, result) ∧ (result = true ↔ key ∈ (contents map).keys) ∧
      contents next = (contents map).filter (fun entry => entry.1 ≠ key) ∧ (result = false → next = map)

def ErasesStale (map : FlatMap K V ordering) : Call K V → Prop
  | .push .. => False
  | .erase key => Stale map key

def CallSearched (map : FlatMap K V ordering) : Call K V → Prop
  | .push key _ => Searched map key
  | .erase key => map.isOutside key = some false → Searchable map key

instance (map : FlatMap K V ordering) : (call : Call K V) → Decidable (ErasesStale map call)
  | .push .. => .isFalse id
  | .erase _ => inferInstanceAs (Decidable (_ ∧ _))

instance (map : FlatMap K V ordering) : (call : Call K V) → Decidable (CallSearched map call)
  | .push key _ => inferInstanceAs (Decidable (Searched map key))
  | .erase _ => inferInstanceAs (Decidable (_ → _))

/-- Neither of the two things that go wrong. -/
def Sound (map : FlatMap K V ordering) (call : Call K V) : Prop := ¬ ErasesStale map call ∧ CallSearched map call

instance (map : FlatMap K V ordering) (call : Call K V) : Decidable (Sound map call) := inferInstanceAs (Decidable (_ ∧ _))

def Holds (capacity : Nat) (map : FlatMap K V ordering) : Prop :=
  map.capacity = capacity ∧ ∃ (levels : Map K V (before ordering)) (stale : List (Node K V)), Packed map levels.entries stale

variable {map : FlatMap K V ordering} {levels : Map K V (before ordering)} {stale : List (Node K V)} {capacity : Nat}

theorem Holds.wellFormed (holds : Holds capacity map) : WellFormed map := by
  obtain ⟨-, levels, stale, packed⟩ := holds
  exact packed_wellFormed packed

private theorem push_packed (packed : Packed map levels.entries stale) (positive : 0 < map.capacity) {key : K}
    (searched : Searched map key) (value : V) :
    ∃ next result, map.push key value = some (next, result) ∧ Holds map.capacity next := by
  by_cases held : levels.entries = []
  · by_cases shown : Stale map key
    · exact ⟨map, some 0, push_stale shown value, rfl, levels, stale, packed⟩
    · rw [held] at packed
      cases stale with
      | nil =>
        have room := packed.room
        rw [length_nil, length_nil] at room
        omega
      | cons slot stale =>
        have fresh : slot.key ≠ key := fun same => shown ⟨packed.size, by rw [packed.front_stale, ← same]; rfl⟩
        have nothing : ∀ entry ∈ ([] : Entries K V), before ordering entry.1 key := fun _ member => absurd member not_mem_nil
        obtain ⟨next, pushed, kept, capacity⟩ := packed.push_between searched nothing
          (fun _ member => absurd member not_mem_nil) (fun _ => ⟨rfl, fresh⟩) value
        exact ⟨next, _, pushed, capacity, ⟨[⟨key, value⟩], pairwise_singleton _ _⟩, stale, kept⟩
  · obtain ⟨next, result, rest, pushed, kept, capacity, -⟩ := push_best packed held searched value
    exact ⟨next, result, pushed, capacity, _, rest, kept⟩

private theorem filter_fresh {entries : Entries K V} {key : K} (apart : ∀ entry ∈ entries, before ordering entry.1 key ∨ before ordering key entry.1) :
    entries.filter (fun entry => entry.1 ≠ key) = entries := by
  apply filter_eq_self.mpr
  intro entry member
  rcases apart entry member with passed | later
  · exact decide_eq_true (ne_of_irrefl passed)
  · exact decide_eq_true (ne_of_irrefl' later)

private theorem filter_found {front back : Entries K V} {key : K} {value : V} (passed : ∀ entry ∈ front, before ordering entry.1 key)
    (later : ∀ entry ∈ back, before ordering key entry.1) :
    (front ++ ⟨key, value⟩ :: back).filter (fun entry => entry.1 ≠ key) = front ++ back := by
  have ahead := filter_fresh fun entry member => Or.inl (passed entry member)
  have behind := filter_fresh fun entry member => Or.inr (later entry member)
  rw [filter_append, filter_cons_of_neg (by simp), ahead, behind]

private theorem erase_packed (packed : Packed map levels.entries stale) (positive : 0 < map.capacity) {key : K}
    (searched : map.isOutside key = some false → Searchable map key) (fresh : ¬ Stale map key) :
    ∃ next result, map.erase key = some (next, result) ∧ Holds map.capacity next ∧ (result = true ↔ key ∈ (contents map).keys) ∧
      contents next = (contents map).filter (fun entry => entry.1 ≠ key) ∧ (result = false → next = map) := by
  rw [packed_contents packed]
  cases found : levels.find? key with
  | some old =>
    obtain ⟨front, back, whole, -, erased, passed, later⟩ := Map.split_found found old
    obtain ⟨next, last, result, kept, capacity, -⟩ := (whole ▸ packed).erase_found searched passed later
    have present : key ∈ levels.entries.keys := mem_keys_of_mem (Map.find?_eq_some.mp found)
    refine ⟨next, true, result, ⟨capacity, levels.erase key, last :: stale, erased ▸ kept⟩, iff_of_true rfl present, ?_,
      fun untrue => Bool.noConfusion untrue⟩
    rw [packed_contents kept, whole, filter_found passed later]
  | none =>
    obtain ⟨front, back, whole, passed, later⟩ := Map.split_absent found
    have result := (whole ▸ packed).erase_absent positive searched passed later fresh
    have absent : key ∉ levels.entries.keys := dlookup_eq_none.mp found
    refine ⟨map, false, result, ⟨rfl, levels, stale, packed⟩, iff_of_false Bool.noConfusion absent, ?_, fun _ => rfl⟩
    rw [packed_contents packed, whole, filter_fresh]
    intro entry member
    exact (mem_append.mp member).imp (passed entry) (later entry)

private theorem call_sound (positive : 0 < capacity) (holds : Holds capacity map) {call : Call K V} (sound : Sound map call) :
    Correct map call ∧ ∃ next, step map call = some next ∧ Holds capacity next := by
  obtain ⟨rfl, levels, stale, packed⟩ := holds
  obtain ⟨fresh, searched⟩ := sound
  cases call with
  | push key value =>
    obtain ⟨next, result, pushed, kept⟩ := push_packed packed positive searched value
    exact ⟨⟨next, result, pushed⟩, next, by rw [step, pushed, Option.map_some], kept⟩
  | erase key =>
    obtain ⟨next, result, erased, kept, correct⟩ := erase_packed packed positive searched fresh
    exact ⟨⟨next, result, erased, correct⟩, next, by rw [step, erased, Option.map_some], kept⟩

private theorem stale_incorrect {call : Call K V} (correct : Correct map call) : ¬ ErasesStale map call := by
  cases call with
  | push key value => exact id
  | erase key =>
    intro stale
    obtain ⟨next, result, erased, told, -⟩ := correct
    rw [erase_stale stale] at erased
    cases erased
    have nothing : contents map = [] := by
      rw [contents, stale.1]
      rfl
    rw [nothing] at told
    exact absurd (told.mp rfl) not_mem_nil

variable [Zero K] [Zero V]

theorem new_holds (small : capacity < 2 ^ 32) : Holds capacity (.new capacity : FlatMap K V ordering) :=
  ⟨rfl, .empty, replicate capacity ⟨0, 0⟩, rfl, rfl, length_replicate, small⟩

/-- A run that returns, through well-formed states, with every call correct. -/
structure RunCorrect (start : FlatMap K V ordering) (calls : List (Call K V)) : Prop where
  returns : ∃ final, calls.foldlM step start = some final
  wellFormed : ∀ first middle, first <+: calls → first.foldlM step start = some middle →
    middle.capacity = start.capacity ∧ WellFormed middle
  correct : ∀ first call after middle, calls = first ++ call :: after → first.foldlM step start = some middle → Correct middle call

private theorem sound_run (positive : 0 < capacity) (small : capacity < 2 ^ 32) {calls : List (Call K V)}
    (sound : Runs.AtEveryStepM step Sound (.new capacity : FlatMap K V ordering) calls) :
    RunCorrect (.new capacity : FlatMap K V ordering) calls := by
  have progress : ∀ (map : FlatMap K V ordering) (call : Call K V), Holds capacity map → Sound map call →
      ∃ next, step map call = some next ∧ Holds capacity next := fun map call holds sound => (call_sound positive holds sound).2
  have reached : ∀ first middle, first <+: calls → first.foldlM step (.new capacity : FlatMap K V ordering) = some middle →
      Holds capacity middle := by
    intro first middle inside ran
    obtain ⟨state, same, holds⟩ := Runs.guardedM_succeeds progress (sound.of_prefix inside) (new_holds small)
    exact Option.some.inj (ran.symm.trans same) ▸ holds
  constructor
  · obtain ⟨final, ran, -⟩ := Runs.guardedM_succeeds progress sound (new_holds small)
    exact ⟨final, ran⟩
  · intro first middle inside ran
    have holds := reached first middle inside ran
    exact ⟨holds.1, holds.wellFormed⟩
  · intro first call after middle split ran
    have holds := reached first middle (split ▸ prefix_append _ _) ran
    exact (call_sound positive holds ((Runs.atEveryStepM_iff calls).mp sound first call after middle split ran)).1

/-- In a run without an erase of a key that an empty map still shows, and without
an overflow in a search, every state is well-formed and every call correct; with
a capacity up to `2 ^ 31` these are exactly the runs without such an erase. -/
theorem calls_correct_iff (positive : 0 < capacity) (small : capacity < 2 ^ 32) (calls : List (Call K V)) :
    (Runs.AtEveryStepM step Sound (.new capacity : FlatMap K V ordering) calls →
      RunCorrect (.new capacity : FlatMap K V ordering) calls) ∧
    (capacity ≤ 2 ^ 31 → (RunCorrect (.new capacity : FlatMap K V ordering) calls ↔
      Runs.AtEveryStepM step (fun map call => ¬ ErasesStale map call) (.new capacity : FlatMap K V ordering) calls)) := by
  refine ⟨sound_run positive small, fun half => ⟨fun correct => ?_, fun fresh => ?_⟩⟩
  · apply (Runs.atEveryStepM_iff calls).mpr
    intro first call after middle split reached
    exact stale_incorrect (correct.correct first call after middle split reached)
  · apply sound_run positive small
    have searched : ∀ (map : FlatMap K V ordering) (call : Call K V), Holds capacity map → ¬ ErasesStale map call → Sound map call := by
      rintro map call holds fresh
      have bounded := holds.wellFormed.size
      rw [holds.1] at bounded
      have searchable := fun key => searchable_of_size (bounded.trans half) key
      cases call with
      | push key value => exact ⟨fresh, fun _ => searchable key⟩
      | erase key => exact ⟨fresh, fun _ => searchable key⟩
    refine fresh.imp searched ?_ (new_holds small)
    intro map call next holds fresh moved
    obtain ⟨-, other, same, kept⟩ := call_sound positive holds (searched map call holds fresh)
    exact Option.some.inj (same.symm.trans moved) ▸ kept

/-- A descending map of two that fills, evicts, empties and fills again. -/
theorem calls_correct_iff_refilled :
    let calls : List (Call Int Int) := [.push 5 50, .push 7 70, .push 6 60, .push 3 30, .erase 5, .erase 6, .erase 7, .erase 9, .push 6 61]
    (Runs.AtEveryStepM step Sound (.new 2 : FlatMap Int Int .descending) calls → RunCorrect (.new 2 : FlatMap Int Int .descending) calls) ∧
    (2 ≤ 2 ^ 31 → (RunCorrect (.new 2 : FlatMap Int Int .descending) calls ↔
      Runs.AtEveryStepM step (fun map call => ¬ ErasesStale map call) (.new 2 : FlatMap Int Int .descending) calls)) :=
  calls_correct_iff (by decide) (by decide) _

/-- A key is pushed, erased and erased again: the second erase tells that the key
was there, and the size of the empty map becomes `2 ^ 32 - 1`. -/
theorem erased_twice :
    ([.push 5 50, .erase 5] : List (Call Int Int)).foldlM step (.new 2 : FlatMap Int Int .ascending) = some ⟨0, 2, [⟨5, 50⟩, ⟨0, 0⟩]⟩ ∧
      contents (⟨0, 2, [⟨5, 50⟩, ⟨0, 0⟩]⟩ : FlatMap Int Int .ascending) = [] ∧
      (⟨0, 2, [⟨5, 50⟩, ⟨0, 0⟩]⟩ : FlatMap Int Int .ascending).erase 5 = some (⟨2 ^ 32 - 1, 2, [⟨5, 50⟩, ⟨0, 0⟩]⟩, true) := by
  decide

end FinanceTech.Proofs.FlatMapInvariant
