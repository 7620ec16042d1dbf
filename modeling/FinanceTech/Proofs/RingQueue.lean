import FinanceTech.Library.Runs
import FinanceTech.RingBuffer

/-! The ring that moves its items is a queue between its two threads, however
their steps are interleaved. Both indices count the calls that returned true,
modulo the capacity, and what one thread has loaded of the other's index can
only be behind, which leaves it less room or fewer items than there are. -/

namespace FinanceTech.Proofs.RingQueue
open Library RingWindow RingBuffers RingBuffers.Basic

universe u

variable {T : Type u} {capacity : Capacity} {system : System T}

def items (system : System T) : List T := system.accepted.map Prod.fst

/-- How many accepted items have been read. -/
def reads (system : System T) : Nat :=
  system.popped.length + match system.pop with
    | .storeTail _ _ => 1
    | _ => 0

/-- The locals of a call of `put` that has begun. -/
structure Begun (capacity : Capacity) (system : System T) (headCurrent headNext : UInt32) : Prop where
  current : headCurrent = system.ring.head
  next : headNext = fastModulo (headCurrent + 1) capacity.value

def PutAt (capacity : Capacity) (system : System T) : Prop :=
  match system.put with
  | .outside => True
  | .loadTail _ headCurrent headNext => Begun capacity system headCurrent headNext
  | .write _ headCurrent headNext => Begun capacity system headCurrent headNext ∧
      system.accepted.length + 2 ≤ system.popped.length + capacity.slots
  | .storeHead item headCurrent headNext => Begun capacity system headCurrent headNext ∧
      system.accepted.length + 2 ≤ system.popped.length + capacity.slots ∧
      system.ring.buffer[system.accepted.length % capacity.slots]? = some item

def PopAt (system : System T) : Prop :=
  match system.pop with
  | .outside => True
  | .loadHead tailCurrent => tailCurrent = system.ring.tail
  | .read tailCurrent => tailCurrent = system.ring.tail ∧ system.popped.length < system.accepted.length
  | .storeTail item tailCurrent => tailCurrent = system.ring.tail ∧ (items system)[system.popped.length]? = some item

structure Valid (capacity : Capacity) (system : System T) : Prop where
  size : system.ring.buffer.length = capacity.slots
  head : IndexOf capacity.value system.ring.head system.accepted.length
  tail : IndexOf capacity.value system.ring.tail system.popped.length
  room : system.accepted.length + 1 ≤ system.popped.length + capacity.slots
  places : ∀ position item slot, system.accepted[position]? = some (item, slot) → IndexOf capacity.value slot position
  window : Window capacity.slots system.ring.buffer (items system) (reads system)
  popped : system.popped <+: items system
  put : PutAt capacity system
  pop : PopAt system

private theorem length_items (system : System T) : (items system).length = system.accepted.length := List.length_map _

theorem popped_le (valid : Valid capacity system) : system.popped.length ≤ system.accepted.length := by
  rw [← length_items]
  exact valid.popped.length_le

private theorem popped_le_reads (system : System T) : system.popped.length ≤ reads system := Nat.le_add_right _ _

theorem initial_valid [Inhabited T] (capacity : Capacity) : Valid capacity (System.initial capacity : System T) := by
  have positive := capacity.powerOfTwo.positive
  refine ⟨List.length_replicate, (Nat.zero_mod _).symm, (Nat.zero_mod _).symm, ?_, ?_, ?_, List.prefix_rfl, trivial, trivial⟩
  · unfold Capacity.slots System.initial
    dsimp only [List.length_nil]
    omega
  · intro position item slot present
    cases present
  · intro position item _ present
    cases present

theorem PopAt.grow {next : System T} (holds : PopAt system) (pop : next.pop = system.pop)
    (tail : next.ring.tail = system.ring.tail) (popped : next.popped = system.popped) (more : items system <+: items next) :
    PopAt next := by
  unfold PopAt at holds ⊢
  rw [pop, tail, popped]
  cases place : system.pop with
  | outside => trivial
  | loadHead tailCurrent =>
    rw [place] at holds
    exact holds
  | read tailCurrent =>
    rw [place] at holds
    have longer := more.length_le
    rw [length_items, length_items] at longer
    exact ⟨holds.1, holds.2.trans_le longer⟩
  | storeTail item tailCurrent =>
    rw [place] at holds
    obtain ⟨rest, same⟩ := more
    have inside := (List.getElem?_eq_some_iff.mp holds.2).1
    rw [← same, List.getElem?_append_left inside]
    exact holds

/-- A step that changes nothing but where the producer is. -/
theorem Valid.with_put (valid : Valid capacity system) {put : Put T} (place : PutAt capacity { system with put }) :
    Valid capacity { system with put } :=
  ⟨valid.size, valid.head, valid.tail, valid.room, valid.places, valid.window, valid.popped, place, valid.pop⟩

section Put

variable {item : T} {headCurrent headNext : UInt32}

/-- What is known of a call that has loaded the tail. -/
theorem Valid.write_at (valid : Valid capacity system) (place : system.put = .write item headCurrent headNext) :
    Begun capacity system headCurrent headNext ∧ system.accepted.length + 2 ≤ system.popped.length + capacity.slots := by
  have put := valid.put
  unfold PutAt at put
  rw [place] at put
  exact put

theorem Valid.loadTail_at (valid : Valid capacity system) (place : system.put = .loadTail item headCurrent headNext) :
    Begun capacity system headCurrent headNext := by
  have put := valid.put
  unfold PutAt at put
  rw [place] at put
  exact put

private theorem Valid.storeHead_at (valid : Valid capacity system) (place : system.put = .storeHead item headCurrent headNext) :
    Begun capacity system headCurrent headNext ∧ system.accepted.length + 2 ≤ system.popped.length + capacity.slots ∧
      system.ring.buffer[system.accepted.length % capacity.slots]? = some item := by
  have put := valid.put
  unfold PutAt at put
  rw [place] at put
  exact put

theorem Begun.index (begun : Begun capacity system headCurrent headNext) (valid : Valid capacity system) :
    IndexOf capacity.value headNext (system.accepted.length + 1) := by
  rw [begun.next, begun.current]
  exact valid.head.next capacity.powerOfTwo

/-- The ring is full for the producer exactly when the consumer has popped all
but as many items as fit. -/
theorem full_iff (begun : Begun capacity system headCurrent headNext) (valid : Valid capacity system) :
    headNext = system.ring.tail ↔ system.accepted.length + 1 = system.popped.length + capacity.slots := by
  have behind := popped_le valid
  have compare := valid.tail.eq_iff (begun.index valid) (by omega) valid.room
  rw [eq_comm, compare]
  unfold Capacity.slots
  omega

private theorem put_outside (valid : Valid capacity system) (place : system.put = .outside) (given : T) :
    ∃ next, system.producer capacity given = some next ∧ Valid capacity next := by
  have moved : system.producer capacity given = some { system with
      put := .loadTail given system.ring.head (fastModulo (system.ring.head + 1) capacity.value) } := by
    simp only [System.producer, place]
  exact ⟨_, moved, valid.with_put ⟨rfl, rfl⟩⟩

private theorem put_loadTail (valid : Valid capacity system) (place : system.put = .loadTail item headCurrent headNext) (given : T) :
    ∃ next, system.producer capacity given = some next ∧ Valid capacity next := by
  have begun := valid.loadTail_at place
  by_cases full : headNext = system.ring.tail
  · have moved : system.producer capacity given = some { system with put := .outside } := by
      simp only [System.producer, place, if_pos full]
    exact ⟨_, moved, valid.with_put trivial⟩
  · have moved : system.producer capacity given = some { system with put := .write item headCurrent headNext } := by
      simp only [System.producer, place, if_neg full]
    have room := valid.room
    have apart := mt (full_iff begun valid).mpr full
    refine ⟨_, moved, valid.with_put ⟨⟨begun.current, begun.next⟩, ?_⟩⟩
    dsimp only
    omega

private theorem put_write (valid : Valid capacity system) (place : system.put = .write item headCurrent headNext) (given : T) :
    ∃ next, system.producer capacity given = some next ∧ Valid capacity next := by
  obtain ⟨begun, room⟩ := valid.write_at place
  have index : headCurrent.toNat = system.accepted.length % capacity.slots := by
    rw [begun.current]
    exact valid.head
  have inside : headCurrent.toNat < system.ring.buffer.length := by
    rw [valid.size, begun.current]
    exact valid.head.below capacity.powerOfTwo
  have ahead := popped_le_reads system
  have moved : system.producer capacity given = some { system with
      ring := { system.ring with buffer := system.ring.buffer.set headCurrent.toNat item }
      put := .storeHead item headCurrent headNext } := by
    simp only [System.producer, place, if_pos inside]
  refine ⟨_, moved, ?_, valid.head, valid.tail, valid.room, valid.places, ?_, valid.popped, ⟨⟨begun.1, begun.2⟩, room, ?_⟩, valid.pop⟩
  · rw [List.length_set]
    exact valid.size
  · rw [index]
    apply valid.window.set
    intro position reached before
    rw [length_items] at before
    exact (slot_ne before (by omega)).symm
  · rw [index] at inside ⊢
    exact List.getElem?_set_self inside

private theorem put_storeHead (valid : Valid capacity system) (place : system.put = .storeHead item headCurrent headNext) (given : T) :
    ∃ next, system.producer capacity given = some next ∧ Valid capacity next := by
  obtain ⟨begun, room, stored⟩ := valid.storeHead_at place
  have moved : system.producer capacity given = some { system with
      ring := { system.ring with head := headNext }
      put := .outside
      accepted := system.accepted ++ [(item, headCurrent)] } := by
    simp only [System.producer, place]
  have longer : (system.accepted ++ [(item, headCurrent)]).length = system.accepted.length + 1 := List.length_append
  have more : (system.accepted ++ [(item, headCurrent)]).map Prod.fst = items system ++ [item] := List.map_append
  refine ⟨_, moved, valid.size, ?_, valid.tail, ?_, ?_, ?_, ?_, trivial, ?_⟩
  · dsimp only
    rw [longer]
    exact begun.index valid
  · dsimp only
    rw [longer]
    omega
  · intro position other slot present
    rcases lt_or_ge position system.accepted.length with before | beyond
    · rw [List.getElem?_append_left before] at present
      exact valid.places position other slot present
    · have inside := (List.getElem?_eq_some_iff.mp present).1
      have last : position = system.accepted.length := by
        dsimp only at inside
        rw [longer] at inside
        omega
      rw [last, List.getElem?_concat_length] at present
      cases present
      rw [last, begun.current]
      exact valid.head
  · unfold items
    dsimp only
    rw [more]
    apply valid.window.append
    rw [length_items]
    exact stored
  · unfold items
    dsimp only
    rw [more]
    exact valid.popped.trans (List.prefix_append _ _)
  · refine valid.pop.grow rfl rfl rfl ?_
    unfold items
    dsimp only
    rw [more]
    exact List.prefix_append _ _

end Put

theorem producer_valid (valid : Valid capacity system) (given : T) :
    ∃ next, system.producer capacity given = some next ∧ Valid capacity next := by
  cases place : system.put with
  | outside => exact put_outside valid place given
  | loadTail item headCurrent headNext => exact put_loadTail valid place given
  | write item headCurrent headNext => exact put_write valid place given
  | storeHead item headCurrent headNext => exact put_storeHead valid place given

/-- What the producer knows stays true while items are popped and their slots
change. -/
theorem PutAt.grow {next : System T} (holds : PutAt capacity system) (put : next.put = system.put)
    (head : next.ring.head = system.ring.head) (accepted : next.accepted = system.accepted)
    (popped : system.popped.length ≤ next.popped.length)
    (slot : next.ring.buffer[system.accepted.length % capacity.slots]? =
      system.ring.buffer[system.accepted.length % capacity.slots]?) : PutAt capacity next := by
  unfold PutAt at holds ⊢
  rw [put, accepted, slot]
  cases place : system.put with
  | outside => trivial
  | loadTail item headCurrent headNext =>
    rw [place] at holds
    exact ⟨holds.current.trans head.symm, holds.next⟩
  | write item headCurrent headNext =>
    rw [place] at holds
    exact ⟨⟨holds.1.current.trans head.symm, holds.1.next⟩, by omega⟩
  | storeHead item headCurrent headNext =>
    rw [place] at holds
    exact ⟨⟨holds.1.current.trans head.symm, holds.1.next⟩, by omega, holds.2.2⟩

/-- A step that changes nothing but where the consumer is, outside the slots. -/
private theorem Valid.with_pop (valid : Valid capacity system) {pop : Pop T} (place : PopAt { system with pop })
    (same : reads { system with pop } = reads system) : Valid capacity { system with pop } := by
  refine ⟨valid.size, valid.head, valid.tail, valid.room, valid.places, ?_, valid.popped, ?_, place⟩
  · rw [same]
    exact valid.window
  · exact valid.put.grow rfl rfl rfl le_rfl rfl

private theorem Valid.pop_at (valid : Valid capacity system) {pop : Pop T} (place : system.pop = pop) : PopAt { system with pop } := by
  rw [← place]
  exact valid.pop

section Pop

variable {item : T} {tailCurrent : UInt32} (moved : T → T)

theorem pop_outside (valid : Valid capacity system) (place : system.pop = .outside) :
    ∃ next, system.consumer capacity moved = some next ∧ Valid capacity next := by
  have step : system.consumer capacity moved = some { system with pop := .loadHead system.ring.tail } := by
    simp only [System.consumer, place]
  refine ⟨_, step, valid.with_pop rfl ?_⟩
  simp only [reads, place]

theorem pop_loadHead (valid : Valid capacity system) (place : system.pop = .loadHead tailCurrent) :
    ∃ next, system.consumer capacity moved = some next ∧ Valid capacity next := by
  have same : tailCurrent = system.ring.tail := valid.pop_at place
  by_cases empty : tailCurrent = system.ring.head
  · have step : system.consumer capacity moved = some { system with pop := .outside } := by
      simp only [System.consumer, place, if_pos empty]
    refine ⟨_, step, valid.with_pop trivial ?_⟩
    simp only [reads, place]
  · have step : system.consumer capacity moved = some { system with pop := .read tailCurrent } := by
      simp only [System.consumer, place, if_neg empty]
    have behind := popped_le valid
    have room := valid.room
    have compare := valid.tail.eq_iff valid.head behind (by unfold Capacity.slots at room; omega)
    have apart := mt compare.mpr (same ▸ empty)
    refine ⟨_, step, valid.with_pop ⟨same, ?_⟩ ?_⟩
    · dsimp only
      omega
    · simp only [reads, place]

private theorem pop_read (valid : Valid capacity system) (place : system.pop = .read tailCurrent) :
    ∃ next, system.consumer capacity moved = some next ∧ Valid capacity next := by
  obtain ⟨same, more⟩ : tailCurrent = system.ring.tail ∧ system.popped.length < system.accepted.length := valid.pop_at place
  have index : tailCurrent.toNat = system.popped.length % capacity.slots := by
    rw [same]
    exact valid.tail
  have before : reads system = system.popped.length := by simp only [reads, place, Nat.add_zero]
  obtain ⟨item, next⟩ : ∃ item, (items system)[system.popped.length]? = some item := by
    rw [← length_items] at more
    exact ⟨_, List.getElem?_eq_getElem more⟩
  have stored : system.ring.buffer[tailCurrent.toNat]? = some item := by
    rw [index]
    exact valid.window _ item before.le next
  have step : system.consumer capacity moved = some { system with
      ring := { system.ring with buffer := system.ring.buffer.set tailCurrent.toNat (moved item) }
      pop := .storeTail item tailCurrent } := by
    simp only [System.consumer, place, stored]
  have room := valid.room
  refine ⟨_, step, ?_, valid.head, valid.tail, valid.room, valid.places, ?_, valid.popped, ?_, ⟨same, next⟩⟩
  · rw [List.length_set]
    exact valid.size
  · rw [index]
    apply (valid.window.drop _).set
    · intro position reached inside
      rw [length_items] at inside
      exact slot_ne reached (by omega)
    · rw [before]
      exact Nat.le_succ _
  · refine valid.put.grow rfl rfl rfl le_rfl ?_
    rw [index]
    exact List.getElem?_set_ne (slot_ne more (by omega))

theorem pop_storeTail (valid : Valid capacity system) (place : system.pop = .storeTail item tailCurrent) :
    ∃ next, system.consumer capacity moved = some next ∧ Valid capacity next := by
  obtain ⟨same, next⟩ : tailCurrent = system.ring.tail ∧ (items system)[system.popped.length]? = some item := valid.pop_at place
  have step : system.consumer capacity moved = some { system with
      ring := { system.ring with tail := fastModulo (tailCurrent + 1) capacity.value }
      pop := .outside
      popped := system.popped ++ [item] } := by
    simp only [System.consumer, place]
  have longer : (system.popped ++ [item]).length = system.popped.length + 1 := List.length_append
  have room := valid.room
  refine ⟨_, step, valid.size, valid.head, ?_, ?_, valid.places, ?_, ?_, ?_, trivial⟩
  · dsimp only
    rw [longer, same]
    exact valid.tail.next capacity.powerOfTwo
  · dsimp only
    omega
  · have after : reads system = system.popped.length + 1 := by simp only [reads, place]
    refine valid.window.drop ?_
    rw [after]
    simp only [reads, longer]
    exact Nat.le_refl _
  · exact prefix_concat valid.popped next
  · refine valid.put.grow rfl rfl rfl ?_ rfl
    dsimp only
    omega

end Pop

theorem consumer_valid (moved : T → T) (valid : Valid capacity system) :
    ∃ next, system.consumer capacity moved = some next ∧ Valid capacity next := by
  cases place : system.pop with
  | outside => exact pop_outside moved valid place
  | loadHead tailCurrent => exact pop_loadHead moved valid place
  | read tailCurrent => exact pop_read moved valid place
  | storeTail item tailCurrent => exact pop_storeTail moved valid place

/-- What the two threads can rely on. -/
structure Queue (capacity : Capacity) (system : System T) : Prop where
  ordered : system.popped <+: items system
  kept : ∀ position item slot, reads system ≤ position → system.accepted[position]? = some (item, slot) →
    system.ring.buffer[slot.toNat]? = some item
  unwritten : ∀ item headCurrent headNext, system.put = .write item headCurrent headNext →
    ∀ position other slot, reads system ≤ position → system.accepted[position]? = some (other, slot) → slot ≠ headCurrent
  full : ∀ item headCurrent headNext, system.put = .loadTail item headCurrent headNext → headNext = system.ring.tail →
    system.accepted.length = system.popped.length + (capacity.slots - 1)

theorem Valid.queue (valid : Valid capacity system) : Queue capacity system := by
  have place : ∀ position item slot, system.accepted[position]? = some (item, slot) →
      slot.toNat = position % capacity.slots := valid.places
  refine ⟨valid.popped, ?_, ?_, ?_⟩
  · intro position item slot reached present
    rw [place position item slot present]
    apply valid.window position item reached
    rw [items, List.getElem?_map, present]
    rfl
  · intro item headCurrent headNext write position other slot reached present same
    obtain ⟨begun, room⟩ := valid.write_at write
    have inside := (List.getElem?_eq_some_iff.mp present).1
    have ahead := popped_le_reads system
    have apart := @slot_ne capacity.slots _ _ inside (by omega)
    apply apart
    rw [← place position other slot present, same, begun.current]
    exact valid.head
  · intro item headCurrent headNext load full
    have begun := valid.loadTail_at load
    have whole := (full_iff begun valid).mp full
    have positive := capacity.powerOfTwo.positive
    unfold Capacity.slots at whole ⊢
    omega

/-- For every power of two and every interleaving of any number of calls, the
ring is a queue, and no step leaves its vector. -/
theorem run_queue [Inhabited T] (capacity : Capacity) (moved : T → T) (turns : List (Turn T)) :
    ∃ system, turns.foldlM (System.step capacity moved) (System.initial capacity) = some system ∧ Queue capacity system := by
  have progress : ∀ (system : System T) turn, Valid capacity system →
      ∃ next, System.step capacity moved system turn = some next ∧ Valid capacity next := by
    intro system turn valid
    cases turn with
    | producer item => exact producer_valid valid item
    | consumer => exact consumer_valid moved valid
  obtain ⟨system, reached, valid⟩ := Runs.foldlM_succeeds progress turns (initial_valid capacity)
  exact ⟨system, reached, valid.queue⟩

end FinanceTech.Proofs.RingQueue
