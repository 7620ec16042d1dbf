import FinanceTech.Library.BoundedQueue
import FinanceTech.Library.Runs
import FinanceTech.OverwritingRings

/-! The ring with the flag for full is a queue that drops its oldest item. Its
indices are those of the positions of the oldest item and of the next one, and
the flag tells the two ways apart in which they can be equal. -/

namespace FinanceTech.Proofs.DropOldestRing
open List Library RingWindow BoundedQueue RingBufferEx

universe u

/-- The capacity as `fast_modulo` takes it. -/
def narrow (capacity : Capacity) : UInt32 := capacity.value.toUInt32

/-- The number of slots. -/
def slots (capacity : Capacity) : Nat := capacity.value.toNat

theorem toNat_narrow (capacity : Capacity) : (narrow capacity).toNat = slots capacity := by
  obtain ⟨value, ⟨bits, exponent⟩, asserted⟩ := capacity
  change value.toUInt32.toNat = value.toNat
  rw [UInt64.toNat_toUInt32, exponent]
  apply Nat.mod_eq_of_lt
  by_contra large
  have many : 32 ≤ bits := (Nat.pow_le_pow_iff_right (by decide)).mp (Nat.le_of_not_lt large)
  have truncated : value.toUInt32 = 0 := by
    apply UInt32.toNat_inj.mp
    rw [UInt64.toNat_toUInt32, exponent]
    exact Nat.mod_eq_zero_of_dvd (Nat.pow_dvd_pow 2 many)
  rw [truncated] at asserted
  exact absurd asserted (by decide)

private theorem narrow_powerOfTwo (capacity : Capacity) : PowerOfTwo (narrow capacity) := by
  have width := toNat_narrow capacity
  obtain ⟨bits, exponent⟩ := capacity.power
  have positive : narrow capacity ≠ 0 := by
    intro zero
    rw [zero, slots, exponent] at width
    exact absurd width.symm (Nat.two_pow_pos bits).ne'
  refine ⟨positive, UInt32.toNat_inj.mp ?_⟩
  rw [UInt32.toNat_and, toNat_pred positive, width, slots, exponent, Nat.and_two_pow_sub_one_eq_mod]
  exact Nat.mod_self _

theorem slots_positive (capacity : Capacity) : 0 < slots capacity := by
  rw [← toNat_narrow]
  exact (narrow_powerOfTwo capacity).positive

/-- An index holds what `fast_modulo` returns. -/
def widen (index : UInt32) : SizeType := index.toUInt64.toInt64

private theorem subscript_widen (index : UInt32) : RingBuffer.subscript (widen index) = index.toNat := rfl

private theorem widen_inj {first second : UInt32} : widen first = widen second ↔ first = second := by
  refine ⟨fun same => UInt32.toNat_inj.mp ?_, congrArg widen⟩
  exact congrArg RingBuffer.subscript same

private theorem modulo_widen (capacity : Capacity) (index : UInt32) :
    capacity.modulo (widen index + 1) = widen (mask (index + 1) (narrow capacity)) := by
  have next : (widen index + 1).toUInt64.toUInt32 = index + 1 := by
    apply UInt32.toNat_inj.mp
    have small := index.toNat_lt
    change (index.toUInt64 + 1).toUInt32.toNat = _
    rw [UInt64.toNat_toUInt32, UInt64.toNat_add, UInt32.toNat_toUInt64, UInt32.toNat_add]
    have one : (1 : UInt64).toNat = 1 := rfl
    have one' : (1 : UInt32).toNat = 1 := rfl
    rw [one, one']
    omega
  rw [Capacity.modulo, next]
  rfl

def At (capacity : Capacity) (index : SizeType) (position : Nat) : Prop :=
  ∃ low, index = widen low ∧ IndexOf (narrow capacity) low position

section At

variable {capacity : Capacity} {index other : SizeType} {position later : Nat}

theorem At.subscript (placed : At capacity index position) : RingBuffer.subscript index = position % slots capacity := by
  obtain ⟨low, rfl, indexed⟩ := placed
  rw [subscript_widen, indexed, toNat_narrow]

theorem At.next (placed : At capacity index position) : At capacity (capacity.modulo (index + 1)) (position + 1) := by
  obtain ⟨low, rfl, indexed⟩ := placed
  exact ⟨_, modulo_widen capacity low, indexed.next (narrow_powerOfTwo capacity)⟩

theorem At.eq_iff (placed : At capacity index position) (second : At capacity other later) (ordered : position ≤ later)
    (near : later ≤ position + slots capacity) : other = index ↔ later = position ∨ later = position + slots capacity := by
  obtain ⟨low, rfl, indexed⟩ := placed
  obtain ⟨high, rfl, behind⟩ := second
  rw [← toNat_narrow] at near ⊢
  rw [widen_inj, eq_comm]
  exact indexed.eq_iff behind ordered near

end At

variable {T : Type u} {capacity : Capacity} {ring : RingBuffer T} {queue : List T}

structure Holds (capacity : Capacity) (ring : RingBuffer T) (queue : List T) (first : Nat) : Prop where
  stores : Stores (slots capacity) ring.buffer queue first
  read : At capacity ring.idxRead first
  write : At capacity ring.idxWrite (first + queue.length)
  full : ring.full = true ↔ queue.length = slots capacity

variable {first : Nat}

theorem new_holds [Inhabited T] (capacity : Capacity) : Holds capacity (RingBuffer.new capacity : RingBuffer T) [] 0 := by
  have start : At capacity 0 0 := ⟨0, rfl, (Nat.zero_mod _).symm⟩
  refine ⟨Stores.empty length_replicate 0, start, start, ?_⟩
  exact iff_of_false Bool.false_ne_true (slots_positive capacity).ne

theorem Holds.empty_iff (holds : Holds capacity ring queue first) : ring.empty = true ↔ queue = [] := by
  have fits := holds.stores.fits
  have positive := slots_positive capacity
  have same := holds.read.eq_iff holds.write (Nat.le_add_right _ _) (Nat.add_le_add_left fits first)
  have full := holds.full
  rw [RingBuffer.empty, decide_eq_true_iff, same, Bool.not_eq_true', ← Bool.not_eq_true, full, ← length_eq_zero_iff]
  omega

private theorem put_holds (holds : Holds capacity ring queue first) (item : T) :
    ∃ next, ring.put capacity item = some next ∧
      Holds capacity next (put (slots capacity) queue item) (first + (queue.length + 1 - slots capacity)) := by
  have fits := holds.stores.fits
  have positive := slots_positive capacity
  have length := length_put fits positive item
  have stored : Slots.store ring.buffer (RingBuffer.subscript ring.idxWrite) item =
      some (ring.buffer.set ((first + queue.length) % slots capacity) item) := by
    rw [holds.write.subscript]
    apply if_pos
    rw [holds.stores.allocated]
    exact Nat.mod_lt _ positive
  have write := holds.write.next
  have read : At capacity (if ring.full then capacity.modulo (ring.idxRead + 1) else ring.idxRead)
      (first + (queue.length + 1 - slots capacity)) := by
    by_cases full : queue.length = slots capacity
    · rw [if_pos (holds.full.mpr full), full, Nat.add_sub_cancel_left]
      exact holds.read.next
    · have room : queue.length + 1 - slots capacity = 0 := by omega
      rw [if_neg (mt holds.full.mp full), room]
      exact holds.read
  have ends : first + queue.length + 1 =
      first + (queue.length + 1 - slots capacity) + (put (slots capacity) queue item).length := by
    rw [length]
    split <;> omega
  rw [ends] at write
  refine ⟨{ buffer := ring.buffer.set ((first + queue.length) % slots capacity) item
            idxWrite := capacity.modulo (ring.idxWrite + 1)
            idxRead := if ring.full then capacity.modulo (ring.idxRead + 1) else ring.idxRead
            full := capacity.modulo (ring.idxWrite + 1) =
              if ring.full then capacity.modulo (ring.idxRead + 1) else ring.idxRead },
    ?_, holds.stores.put positive item, read, write, ?_⟩
  · simp only [RingBuffer.put, stored, Option.bind_eq_bind, Option.bind_some]
  · have within := (holds.stores.put positive item).fits
    have same := read.eq_iff write (Nat.le_add_right _ _) (Nat.add_le_add_left within _)
    rw [decide_eq_true_iff, same, length]
    split <;> omega

private theorem get_holds (moved : T → T) (holds : Holds capacity ring queue first) :
    ∃ next later, ring.get capacity moved = some (next, queue.head?) ∧ Holds capacity next queue.tail later := by
  cases queue with
  | nil =>
    refine ⟨ring, first, ?_, holds⟩
    rw [RingBuffer.get, if_pos (holds.empty_iff.mpr rfl)]
    rfl
  | cons item rest =>
    have positive := slots_positive capacity
    have fits := holds.stores.fits
    rw [length_cons] at fits
    have held : ¬ ring.empty = true := fun empty => nomatch holds.empty_iff.mp empty
    obtain ⟨read, kept⟩ := holds.stores.get (moved item)
    have stored : Slots.store ring.buffer (RingBuffer.subscript ring.idxRead) (moved item) =
        some (ring.buffer.set (first % slots capacity) (moved item)) := by
      rw [holds.read.subscript]
      apply if_pos
      rw [holds.stores.allocated]
      exact Nat.mod_lt _ positive
    have write := holds.write
    rw [length_cons, Nat.add_comm rest.length 1, ← Nat.add_assoc] at write
    rw [← holds.read.subscript] at read
    refine ⟨{ ring with
              buffer := ring.buffer.set (first % slots capacity) (moved item)
              idxRead := capacity.modulo (ring.idxRead + 1)
              full := false },
      first + 1, ?_, kept, holds.read.next, write, ?_⟩
    · rw [RingBuffer.get, if_neg held, read]
      simp only [stored, Option.bind_eq_bind, Option.bind_some]
      rfl
    · exact iff_of_false Bool.false_ne_true (Nat.ne_of_lt fits)

/-- The ring, and what every `get` so far has returned. -/
def step (capacity : Capacity) (moved : T → T) (state : RingBuffer T × List (Option T)) :
    Call T → Option (RingBuffer T × List (Option T))
  | .put item => (state.1.put capacity item).map (·, state.2)
  | .get => (state.1.get capacity moved).map fun result => (result.1, state.2 ++ [result.2])

/-- The ring holds the queue, and both have returned the same. -/
def Related (capacity : Capacity) (state : RingBuffer T × List (Option T)) (spec : List T × List (Option T)) : Prop :=
  (∃ first, Holds capacity state.1 spec.1 first) ∧ state.2 = spec.2

private theorem step_related (moved : T → T) {state : RingBuffer T × List (Option T)} {spec : List T × List (Option T)}
    (related : Related capacity state spec) (call : Call T) :
    ∃ next, step capacity moved state call = some next ∧
      Related capacity next (BoundedQueue.step (slots capacity) spec call) := by
  obtain ⟨⟨first, holds⟩, same⟩ := related
  cases call with
  | put item =>
    obtain ⟨next, done, kept⟩ := put_holds holds item
    exact ⟨(next, state.2), congrArg (Option.map (·, state.2)) done, ⟨_, kept⟩, same⟩
  | get =>
    obtain ⟨next, later, done, kept⟩ := get_holds moved holds
    refine ⟨(next, state.2 ++ [spec.1.head?]), ?_, ⟨later, kept⟩, congrArg (· ++ [spec.1.head?]) same⟩
    exact congrArg (Option.map fun result => (result.1, state.2 ++ [result.2])) done

/-- For every power of two and every sequence of calls the ring returns what the
bounded queue does, and it is empty and full when that is. -/
theorem run_dropOldest [Inhabited T] (capacity : Capacity) (moved : T → T) (calls : List (Call T)) :
    ∃ ring queue results, calls.foldlM (step capacity moved) (RingBuffer.new capacity, []) = some (ring, results) ∧
      calls.foldl (BoundedQueue.step (slots capacity)) ([], []) = (queue, results) ∧
      (ring.empty = true ↔ queue = []) ∧ (ring.isFull = true ↔ queue.length = slots capacity) := by
  have start : Related capacity ((RingBuffer.new capacity : RingBuffer T), []) ([], []) := ⟨⟨0, new_holds capacity⟩, rfl⟩
  obtain ⟨⟨ring, results⟩, ran, ⟨first, holds⟩, same⟩ :=
    @Runs.foldlM_follows _ _ _ _ _ (Related capacity)
      (fun _ _ call related => step_related moved related call) calls _ _ start
  exact ⟨ring, _, _, ran.trans (congrArg (fun results => some (ring, results)) same), rfl, holds.empty_iff, holds.full⟩

end FinanceTech.Proofs.DropOldestRing
