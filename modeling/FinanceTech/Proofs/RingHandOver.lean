import FinanceTech.Library.Runs
import FinanceTech.RingBuffer

/-! The ring that hands out its slots. `pop` lets go of a slot before the
consumer has looked at it, but the producer may not fill the slot behind the
tail, so the slot that was popped last stays with the consumer until the next
one is popped. -/

namespace FinanceTech.Proofs.RingHandOver
open Library RingWindow RingBuffers RingBuffers.TwoPhasePush

variable {capacity : Capacity} {system : System}

/-- How many messages have been popped: the one that the consumer holds may not
be read yet. -/
def released (system : System) : Nat :=
  system.messages.length + match system.consumer with
    | .reading _ => 1
    | _ => 0

/-- The first position whose slot may not be cleared. -/
def uncleared (system : System) : Nat :=
  match system.consumer with
  | .clearing _ => system.messages.length - 1
  | _ => system.messages.length

/-- The first position whose slot has not been handed out to the producer. -/
def untaken (system : System) : Nat :=
  system.committed.length + match system.producer with
    | .filling _ => 1
    | _ => 0

/-- What the producer has cached of the head. -/
structure Cached (capacity : Capacity) (system : System) : Prop where
  head : system.ring.headCached = system.ring.head
  next : system.ring.headNext = fastModulo (system.ring.headCached + 1) capacity.value

def ProducerAt (capacity : Capacity) (system : System) : Prop :=
  match system.producer with
  | .outside => True
  | .loadTail => Cached capacity system
  | .filling item => Cached capacity system ∧ item = system.ring.headCached ∧
      system.committed.length + 2 ≤ released system + capacity.slots

def ConsumerAt (capacity : Capacity) (system : System) : Prop :=
  match system.consumer with
  | .outside => True
  | .loadHead tailLocal => tailLocal = system.ring.tail
  | .storeTail tailLocal => tailLocal = system.ring.tail ∧ system.messages.length < system.committed.length
  | .reading item => IndexOf capacity.value item system.messages.length
  | .clearing item => 0 < system.messages.length ∧ IndexOf capacity.value item (system.messages.length - 1)

structure Valid (capacity : Capacity) (system : System) : Prop where
  size : system.ring.buffer.length = capacity.slots
  head : IndexOf capacity.value system.ring.head system.committed.length
  tail : IndexOf capacity.value system.ring.tail (released system)
  behind : released system ≤ system.committed.length
  room : system.committed.length + 1 ≤ released system + capacity.slots
  window : Window capacity.slots system.ring.buffer system.committed system.messages.length
  empty : ∀ position, untaken system ≤ position → position < uncleared system + capacity.slots →
    system.ring.buffer[position % capacity.slots]? = some []
  ordered : system.messages <+: system.committed
  held : ∀ slot, system.held = some slot → 0 < released system ∧ IndexOf capacity.value slot (released system - 1)
  producer : ProducerAt capacity system
  consumer : ConsumerAt capacity system

theorem initial_valid (capacity : Capacity) : Valid capacity (System.initial capacity) := by
  have positive := capacity.powerOfTwo.positive
  refine ⟨List.length_replicate, (Nat.zero_mod _).symm, (Nat.zero_mod _).symm, le_rfl, ?_, ?_, ?_, List.prefix_rfl, ?_, trivial, trivial⟩
  · change 0 + 1 ≤ 0 + capacity.slots
    unfold Capacity.slots
    omega
  · intro position item _ present
    cases present
  · intro position _ _
    exact List.getElem?_replicate_of_lt (Nat.mod_lt _ positive)
  · intro slot held
    cases held

section Places

variable {item : UInt32}

theorem Valid.loadTail_at (valid : Valid capacity system) (place : system.producer = .loadTail) : Cached capacity system := by
  have producer := valid.producer
  unfold ProducerAt at producer
  rw [place] at producer
  exact producer

theorem Valid.filling_at (valid : Valid capacity system) (place : system.producer = .filling item) :
    Cached capacity system ∧ item = system.ring.headCached ∧
      system.committed.length + 2 ≤ released system + capacity.slots := by
  have producer := valid.producer
  unfold ProducerAt at producer
  rw [place] at producer
  exact producer

theorem Valid.filling_index (valid : Valid capacity system) (place : system.producer = .filling item) :
    item.toNat = system.committed.length % capacity.slots := by
  obtain ⟨cached, same, -⟩ := valid.filling_at place
  rw [same, cached.head]
  exact valid.head

private theorem Valid.filling_slot (valid : Valid capacity system) (place : system.producer = .filling item) :
    ∃ message, system.ring.buffer[item.toNat]? = some message := by
  obtain ⟨cached, same, -⟩ := valid.filling_at place
  have inside : item.toNat < system.ring.buffer.length := by
    rw [valid.size, same, cached.head]
    exact valid.head.below capacity.powerOfTwo
  exact ⟨_, List.getElem?_eq_getElem inside⟩

theorem Cached.index (cached : Cached capacity system) (valid : Valid capacity system) :
    IndexOf capacity.value system.ring.headNext (system.committed.length + 1) := by
  rw [cached.next, cached.head]
  exact valid.head.next capacity.powerOfTwo

theorem full_iff (cached : Cached capacity system) (valid : Valid capacity system) :
    system.ring.headNext = system.ring.tail ↔ system.committed.length + 1 = released system + capacity.slots := by
  have behind := valid.behind
  have compare := valid.tail.eq_iff (cached.index valid) (by omega) valid.room
  rw [eq_comm, compare]
  unfold Capacity.slots
  omega

private theorem uncleared_le (system : System) : uncleared system ≤ system.messages.length := by
  unfold uncleared
  split
  · exact Nat.sub_le _ _
  · exact le_rfl

theorem released_le (system : System) : released system ≤ uncleared system + 1 := by
  unfold released uncleared
  cases system.consumer <;> simp only [] <;> omega

private theorem messages_le (system : System) : system.messages.length ≤ released system := Nat.le_add_right _ _

end Places

section Producer

variable {item : UInt32}

private theorem Valid.with_producer {next : System} (valid : Valid capacity system) (buffer : next.ring.buffer = system.ring.buffer)
    (head : next.ring.head = system.ring.head) (tail : next.ring.tail = system.ring.tail)
    (consumer : next.consumer = system.consumer) (committed : next.committed = system.committed)
    (messages : next.messages = system.messages) (held : next.held = system.held)
    (taken : untaken system ≤ untaken next) (place : ProducerAt capacity next) : Valid capacity next := by
  have same : released next = released system := by simp only [released, messages, consumer]
  have still : uncleared next = uncleared system := by simp only [uncleared, messages, consumer]
  refine ⟨?_, ?_, ?_, ?_, ?_, ?_, ?_, ?_, ?_, place, ?_⟩
  · rw [buffer]
    exact valid.size
  · rw [head, committed]
    exact valid.head
  · rw [tail, same]
    exact valid.tail
  · rw [same, committed]
    exact valid.behind
  · rw [same, committed]
    exact valid.room
  · rw [buffer, committed, messages]
    exact valid.window
  · rw [buffer, still]
    exact fun position reached => valid.empty position (taken.trans reached)
  · rw [messages, committed]
    exact valid.ordered
  · rw [held, same]
    exact valid.held
  · have known := valid.consumer
    unfold ConsumerAt at known ⊢
    rw [consumer, tail, messages, committed]
    exact known

theorem getItem_outside (valid : Valid capacity system) (place : system.producer = .outside) :
    Valid capacity (system.getItem capacity) := by
  have moved : system.getItem capacity = { system with
      ring := { system.ring with headCached := system.ring.head, headNext := fastModulo (system.ring.head + 1) capacity.value }
      producer := .loadTail } := by
    simp only [System.getItem, place]
  rw [moved]
  refine valid.with_producer rfl rfl rfl rfl rfl rfl rfl ?_ ⟨rfl, rfl⟩
  simp only [untaken, place, le_refl]

theorem getItem_loadTail (valid : Valid capacity system) (place : system.producer = .loadTail) :
    Valid capacity (system.getItem capacity) := by
  have cached := valid.loadTail_at place
  by_cases full : system.ring.headNext = system.ring.tail
  · have moved : system.getItem capacity = { system with producer := .outside } := by
      simp only [System.getItem, place, if_pos full]
    rw [moved]
    refine valid.with_producer rfl rfl rfl rfl rfl rfl rfl ?_ trivial
    simp only [untaken, place, le_refl]
  · have moved : system.getItem capacity = { system with producer := .filling system.ring.headCached } := by
      simp only [System.getItem, place, if_neg full]
    have room := valid.room
    have apart := mt (full_iff cached valid).mpr full
    rw [moved]
    refine valid.with_producer rfl rfl rfl rfl rfl rfl rfl ?_ ⟨⟨cached.head, cached.next⟩, rfl, ?_⟩
    · simp only [untaken, place]
      omega
    · change system.committed.length + 2 ≤ released system + capacity.slots
      omega

theorem getItem_valid (valid : Valid capacity system) (outside : ∀ item, system.producer ≠ .filling item) :
    Valid capacity (system.getItem capacity) := by
  cases place : system.producer with
  | outside => exact getItem_outside valid place
  | loadTail => exact getItem_loadTail valid place
  | filling item => exact absurd place (outside item)

/-- The slot that is filled is neither that of a message nor one that the
producer will get next. -/
theorem append_valid (valid : Valid capacity system) (place : system.producer = .filling item) (characters : Buffer) :
    ∃ next, system.append item characters = some next ∧ Valid capacity next := by
  obtain ⟨cached, same, room⟩ := valid.filling_at place
  have index := valid.filling_index place
  obtain ⟨message, stored⟩ := valid.filling_slot place
  have moved : system.append item characters = some { system with
      ring := { system.ring with buffer := system.ring.buffer.set item.toNat (message ++ characters) } } := by
    simp only [System.append, stored]
  have taken : untaken system = system.committed.length + 1 := by simp only [untaken, place]
  have low := uncleared_le system
  have close := released_le system
  have read := messages_le system
  have behind := valid.behind
  refine ⟨_, moved, ?_, valid.head, valid.tail, valid.behind, valid.room, ?_, ?_, valid.ordered, valid.held, ?_, valid.consumer⟩
  · rw [List.length_set]
    exact valid.size
  · rw [index]
    apply valid.window.set
    intro position reached before
    exact (slot_ne before (by omega)).symm
  · intro position reached before
    change untaken system ≤ position at reached
    change position < uncleared system + capacity.slots at before
    rw [index, List.getElem?_set_ne (slot_ne (by omega) (by omega))]
    exact valid.empty position reached before
  · unfold ProducerAt
    rw [place]
    exact ⟨⟨cached.head, cached.next⟩, same, room⟩

theorem commit_valid (valid : Valid capacity system) (place : system.producer = .filling item) :
    ∃ next, system.commit item = some next ∧ Valid capacity next := by
  obtain ⟨cached, same, room⟩ := valid.filling_at place
  have index := valid.filling_index place
  obtain ⟨message, stored⟩ := valid.filling_slot place
  have moved : system.commit item = some { system with
      ring := { system.ring with head := system.ring.headNext }
      producer := .outside
      committed := system.committed ++ [message] } := by
    simp only [System.commit, stored]
  have longer : (system.committed ++ [message]).length = system.committed.length + 1 := List.length_append
  have behind := valid.behind
  refine ⟨_, moved, valid.size, ?_, valid.tail, ?_, ?_, ?_, ?_, ?_, valid.held, trivial, ?_⟩
  · dsimp only
    rw [longer]
    exact cached.index valid
  · dsimp only
    rw [longer]
    exact behind.trans (Nat.le_succ _)
  · dsimp only
    rw [longer]
    exact room
  · apply valid.window.append
    rw [← index]
    exact stored
  · intro position reached
    apply valid.empty position
    simp only [untaken, longer, place] at reached ⊢
    exact reached
  · exact valid.ordered.trans (List.prefix_append _ _)
  · have known := valid.consumer
    unfold ConsumerAt at known ⊢
    dsimp only
    rw [longer]
    cases stage : system.consumer with
    | storeTail tailLocal =>
      rw [stage] at known
      exact ⟨known.1, known.2.trans (Nat.lt_succ_self _)⟩
    | _ =>
      rw [stage] at known
      exact known

end Producer

section Consumer

variable {item tailLocal : UInt32}

theorem ProducerAt.grow {next : System} (holds : ProducerAt capacity system) (producer : next.producer = system.producer)
    (cached : next.ring.headCached = system.ring.headCached) (headNext : next.ring.headNext = system.ring.headNext)
    (head : next.ring.head = system.ring.head) (committed : next.committed = system.committed)
    (more : released system ≤ released next) : ProducerAt capacity next := by
  unfold ProducerAt at holds ⊢
  rw [producer, committed, cached]
  have kept : Cached capacity system → Cached capacity next := by
    intro known
    exact ⟨cached.trans (known.head.trans head.symm), headNext.trans (known.next.trans (by rw [cached]))⟩
  cases place : system.producer with
  | outside => trivial
  | loadTail =>
    rw [place] at holds
    exact kept holds
  | filling item =>
    rw [place] at holds
    exact ⟨kept holds.1, holds.2.1, by omega⟩

/-- A step inside `pop` before the tail is stored. -/
private theorem Valid.with_consumer (valid : Valid capacity system) {consumer : Consumer}
    (same : released { system with consumer } = released system) (still : uncleared { system with consumer } = uncleared system)
    (place : ConsumerAt capacity { system with consumer }) : Valid capacity { system with consumer } := by
  refine ⟨valid.size, valid.head, ?_, ?_, ?_, valid.window, ?_, valid.ordered, ?_, ?_, place⟩
  · rw [same]
    exact valid.tail
  · rw [same]
    exact valid.behind
  · rw [same]
    exact valid.room
  · rw [still]
    exact valid.empty
  · rw [same]
    exact valid.held
  · exact valid.producer.grow rfl rfl rfl rfl rfl same.ge

theorem Valid.consumer_at (valid : Valid capacity system) {consumer : Consumer} (place : system.consumer = consumer) :
    ConsumerAt capacity { system with consumer } := by
  rw [← place]
  exact valid.consumer

theorem pop_outside (valid : Valid capacity system) (place : system.consumer = .outside) :
    ∃ next, system.pop capacity = some next ∧ Valid capacity next := by
  have moved : system.pop capacity = some { system with consumer := .loadHead system.ring.tail } := by
    simp only [System.pop, place]
  refine ⟨_, moved, valid.with_consumer ?_ ?_ rfl⟩
  · simp only [released, place]
  · simp only [uncleared, place]

theorem pop_loadHead (valid : Valid capacity system) (place : system.consumer = .loadHead tailLocal) :
    ∃ next, system.pop capacity = some next ∧ Valid capacity next := by
  have same : tailLocal = system.ring.tail := valid.consumer_at place
  by_cases none : tailLocal = system.ring.head
  · have moved : system.pop capacity = some { system with consumer := .outside } := by
      simp only [System.pop, place, if_pos none]
    refine ⟨_, moved, valid.with_consumer ?_ ?_ trivial⟩
    · simp only [released, place]
    · simp only [uncleared, place]
  · have moved : system.pop capacity = some { system with consumer := .storeTail tailLocal } := by
      simp only [System.pop, place, if_neg none]
    have behind := valid.behind
    have room := valid.room
    have compare := valid.tail.eq_iff valid.head behind (by unfold Capacity.slots at room; omega)
    have apart := mt compare.mpr (same ▸ none)
    have all : released system = system.messages.length := by simp only [released, place, Nat.add_zero]
    refine ⟨_, moved, valid.with_consumer ?_ ?_ ⟨same, ?_⟩⟩
    · simp only [released, place]
    · simp only [uncleared, place]
    · dsimp only
      omega

theorem pop_storeTail (valid : Valid capacity system) (place : system.consumer = .storeTail tailLocal) :
    ∃ next, system.pop capacity = some next ∧ Valid capacity next := by
  obtain ⟨same, more⟩ : tailLocal = system.ring.tail ∧ system.messages.length < system.committed.length := valid.consumer_at place
  have moved : system.pop capacity = some { system with
      ring := { system.ring with tail := fastModulo (tailLocal + 1) capacity.value }
      consumer := .reading tailLocal
      held := some tailLocal } := by
    simp only [System.pop, place]
  have before : released system = system.messages.length := by simp only [released, place, Nat.add_zero]
  have index : IndexOf capacity.value tailLocal system.messages.length := by
    rw [same, ← before]
    exact valid.tail
  have room := valid.room
  refine ⟨_, moved, valid.size, valid.head, ?_, ?_, ?_, valid.window, ?_, valid.ordered, ?_, ?_, index⟩
  · exact index.next capacity.powerOfTwo
  · exact more
  · simp only [released]
    omega
  · have still : uncleared system = system.messages.length := by simp only [uncleared, place]
    intro position reached inside
    apply valid.empty position reached
    rw [still]
    exact inside
  · intro slot held
    cases held
    exact ⟨Nat.succ_pos _, index⟩
  · refine valid.producer.grow rfl rfl rfl rfl rfl ?_
    rw [before]
    exact Nat.le_succ _

private theorem pop_reading (valid : Valid capacity system) (place : system.consumer = .reading item) :
    ∃ next, system.pop capacity = some next ∧ Valid capacity next := by
  have index : item.toNat = system.messages.length % capacity.slots := valid.consumer_at place
  have before : released system = system.messages.length + 1 := by simp only [released, place]
  have more : system.messages.length < system.committed.length := by
    have behind := valid.behind
    omega
  have next := List.getElem?_eq_getElem more
  have stored : system.ring.buffer[item.toNat]? = some system.committed[system.messages.length] := by
    rw [index]
    exact valid.window _ _ le_rfl next
  have moved : system.pop capacity = some { system with
      consumer := .clearing item
      messages := system.messages ++ [system.committed[system.messages.length]] } := by
    simp only [System.pop, place, stored]
  generalize system.committed[system.messages.length] = message at next moved
  have longer : (system.messages ++ [message]).length = system.messages.length + 1 := List.length_append
  have same : system.messages.length + 1 = released { system with
      consumer := .clearing item
      messages := system.messages ++ [message] } := by
    simp only [released, longer, Nat.add_zero]
  refine ⟨_, moved, valid.size, valid.head, ?_, ?_, ?_, ?_, ?_, ?_, ?_, ?_, ?_⟩
  · rw [← same, ← before]
    exact valid.tail
  · rw [← same, ← before]
    exact valid.behind
  · rw [← same, ← before]
    exact valid.room
  · refine valid.window.drop ?_
    dsimp only
    rw [longer]
    exact Nat.le_succ _
  · have still : uncleared system = system.messages.length := by simp only [uncleared, place]
    intro position reached inside
    apply valid.empty position reached
    simp only [uncleared, longer] at inside
    rw [still]
    omega
  · exact prefix_concat valid.ordered next
  · rw [← same, ← before]
    exact valid.held
  · refine valid.producer.grow rfl rfl rfl rfl rfl ?_
    rw [before, same]
  · unfold ConsumerAt
    dsimp only
    rw [longer]
    exact ⟨Nat.succ_pos _, index⟩

/-- The slot that is cleared was popped last, and is the last one that the
producer can get. -/
private theorem pop_clearing (valid : Valid capacity system) (place : system.consumer = .clearing item) :
    ∃ next, system.pop capacity = some next ∧ Valid capacity next := by
  obtain ⟨positive, index⟩ : 0 < system.messages.length ∧ item.toNat = (system.messages.length - 1) % capacity.slots := valid.consumer_at place
  have inside : item.toNat < system.ring.buffer.length := by
    rw [valid.size, index]
    exact Nat.mod_lt _ capacity.powerOfTwo.positive
  have moved : system.pop capacity = some { system with
      ring := { system.ring with buffer := system.ring.buffer.set item.toNat [] }
      consumer := .outside } := by
    simp only [System.pop, place, if_pos inside]
  have same : released system = system.messages.length := by simp only [released, place, Nat.add_zero]
  have before : uncleared system = system.messages.length - 1 := by simp only [uncleared, place]
  have behind := valid.behind
  have room := valid.room
  rw [same] at behind room
  refine ⟨_, moved, ?_, valid.head, ?_, ?_, ?_, ?_, ?_, valid.ordered, ?_, ?_, trivial⟩
  · rw [List.length_set]
    exact valid.size
  · have tail := valid.tail
    rw [same] at tail
    exact tail
  · exact behind
  · exact room
  · rw [index]
    apply valid.window.set
    intro position reached present
    exact slot_ne (by omega) (by omega)
  · intro position reached near
    change untaken system ≤ position at reached
    change position < system.messages.length + capacity.slots at near
    have free : system.committed.length ≤ position := (Nat.le_add_right _ _).trans reached
    rcases lt_or_ge position (uncleared system + capacity.slots) with known | new
    · rw [index, List.getElem?_set_ne (slot_ne (by omega) (by omega))]
      exact valid.empty position reached known
    · have last : position = system.messages.length - 1 + capacity.slots := by omega
      rw [last, Nat.add_mod_right, ← index]
      exact List.getElem?_set_self inside
  · have held := valid.held
    rw [same] at held
    exact held
  · exact valid.producer.grow rfl rfl rfl rfl rfl same.le

end Consumer

theorem pop_valid (valid : Valid capacity system) : ∃ next, system.pop capacity = some next ∧ Valid capacity next := by
  cases place : system.consumer with
  | outside => exact pop_outside valid place
  | loadHead tailLocal => exact pop_loadHead valid place
  | storeTail tailLocal => exact pop_storeTail valid place
  | reading item => exact pop_reading valid place
  | clearing item => exact pop_clearing valid place

theorem step_valid (valid : Valid capacity system) (turn : Turn) :
    ∃ next, system.step capacity turn = some next ∧ Valid capacity next := by
  cases turn with
  | consumer => exact pop_valid valid
  | append characters =>
    simp only [System.step]
    split
    next item place => exact append_valid valid place characters
    next outside => exact ⟨_, rfl, getItem_valid valid outside⟩
  | commit =>
    simp only [System.step]
    split
    next item place => exact commit_valid valid place
    next outside => exact ⟨_, rfl, getItem_valid valid outside⟩

/-- The next step of the producer is the one at which `getItem` returns a slot. -/
structure Returns (system : System) (slot : UInt32) : Prop where
  place : system.producer = .loadTail
  room : system.ring.headNext ≠ system.ring.tail
  slot : system.ring.headCached = slot

/-- What the two threads can rely on: the messages read are the first of those
committed, as they were committed, and a slot that `getItem` returns is empty
and not the one that `pop` returned last. -/
structure HandOver (system : System) : Prop where
  ordered : system.messages <+: system.committed
  empty : ∀ slot, Returns system slot → system.ring.buffer[slot.toNat]? = some []
  apart : ∀ slot, Returns system slot → system.held ≠ some slot
  exclusive : ∀ slot, system.producer = .filling slot → system.held ≠ some slot

private theorem held_apart (valid : Valid capacity system) {slot : UInt32}
    (index : IndexOf capacity.value slot system.committed.length)
    (room : system.committed.length + 2 ≤ released system + capacity.slots) : system.held ≠ some slot := by
  intro held
  obtain ⟨positive, last⟩ := valid.held slot held
  have behind := valid.behind
  have differ := @slot_ne capacity.slots (released system - 1) system.committed.length (by omega) (by omega)
  exact differ (last.symm.trans index)

private theorem Valid.handOver (valid : Valid capacity system) : HandOver system := by
  have returned : ∀ slot, Returns system slot → IndexOf capacity.value slot system.committed.length ∧
      system.committed.length + 2 ≤ released system + capacity.slots := by
    intro slot returns
    have cached := valid.loadTail_at returns.place
    have room := valid.room
    have apart := mt (full_iff cached valid).mpr returns.room
    rw [← returns.slot, cached.head]
    exact ⟨valid.head, by omega⟩
  refine ⟨valid.ordered, ?_, ?_, ?_⟩
  · intro slot returns
    obtain ⟨index, room⟩ := returned slot returns
    have close := released_le system
    rw [index]
    apply valid.empty
    · simp only [untaken, returns.place, Nat.add_zero, le_refl]
    · omega
  · intro slot returns
    obtain ⟨index, room⟩ := returned slot returns
    exact held_apart valid index room
  · intro slot place
    exact held_apart valid (valid.filling_index place) (valid.filling_at place).2.2

/-- For every power of two and every interleaving of the two threads, slots are
handed over safely, and no step leaves the vector. -/
theorem run_handOver (capacity : Capacity) (turns : List Turn) :
    ∃ system, turns.foldlM (System.step capacity) (System.initial capacity) = some system ∧ HandOver system := by
  have progress : ∀ system turn, Valid capacity system →
      ∃ next, System.step capacity system turn = some next ∧ Valid capacity next :=
    fun _ turn valid => step_valid valid turn
  obtain ⟨system, reached, valid⟩ := Runs.foldlM_succeeds progress turns (initial_valid capacity)
  exact ⟨system, reached, valid.handOver⟩

end FinanceTech.Proofs.RingHandOver
