import FinanceTech.ExchangeDataProcessor
import FinanceTech.Proofs.BufferContents
import FinanceTech.Proofs.RingHandOver

/-! Pushing a message fills the slot that the ring hands out. The ring of byte
buffers steps as the ring of what they hold does, so a slot that is handed out is
empty and nobody else's until it is committed; a full ring hands out none. -/

namespace FinanceTech.Proofs.FeedPush

open Library RingWindow RingBuffers Strings Buffers PriceEngine BufferContents
open RingHandOver (Valid released uncleared untaken)

section Slot

variable {slot : Buffer}

theorem content_holds {contents : Text} (holds : Holds slot contents) : Processor.content slot = some contents := by
  have size := holds.size
  have allocated := holds.allocated
  have enough := holds.enough
  have bytes := holds.bytes
  unfold memory at allocated bytes
  have all : (contents.map some).mapM id = some contents := by
    clear size allocated enough bytes holds
    induction contents with
    | nil => rfl
    | cons byte rest ih => simp only [List.map_cons, List.mapM_cons, ih, id, Option.bind_eq_bind, Option.bind_some, Option.pure_def]
  rw [Processor.content, if_pos (by omega), size, bytes, all]

/-- A message fits a slot that has room for it, or can grow to have it. -/
def Fits (slot : Buffer) (eventData : Text) : Prop :=
  eventData.length ≤ slot.capacity.toNat ∨ slot.capacity.toNat + eventData.length ≤ 2 ^ 31

private theorem fill_spec (holds : Holds slot []) {eventData : Text} (fits : Fits slot eventData) :
    ∃ next, Processor.fill slot eventData = some next ∧ Holds next eventData := by
  have bound := slot.capacity.toNat_lt
  have size : slot.size = 0 := UInt32.toNat_inj.mp holds.size
  have bytes : (UInt32.ofNat eventData.length).toNat = eventData.length := by
    rw [UInt32.toNat_ofNat']
    apply Nat.mod_eq_of_lt
    cases fits <;> omega
  have works : UInt32.ofNat eventData.length ≤ slot.capacity - slot.size ∨
      slot.capacity.toNat + (UInt32.ofNat eventData.length).toNat ≤ 2 ^ 31 := by
    rw [size, UInt32.sub_zero, UInt32.le_iff_toNat_le, bytes]
    exact fits
  obtain ⟨ready, tailed, held, room⟩ := tail_spec holds _ works
  rw [bytes, List.length_nil, Nat.zero_add] at room
  obtain ⟨written, wrote, holding⟩ := writeTail_spec held eventData (by rw [List.length_nil]; omega)
  refine ⟨_, ?_, holding⟩
  simp only [Processor.fill, tailed, wrote, Option.bind_eq_bind, Option.bind_some, Option.pure_def]

private theorem writeTail_fits {bytes : Text} {next : Buffer} (wrote : slot.writeTail bytes = some next) :
    slot.size.toNat + bytes.length ≤ (memory slot).length ∨ bytes = [] := by
  unfold Buffer.writeTail at wrote
  cases present : slot.data with
  | some data =>
    simp only [present, Option.bind_eq_bind, Option.bind_eq_some_iff] at wrote
    obtain ⟨written, copied, _⟩ := wrote
    have fits := copyTo_fits copied
    rw [List.length_map] at fits
    left
    simpa only [memory, present, Option.getD_some] using fits
  | none =>
    right
    rw [present] at wrote
    by_contra nonempty
    simp [nonempty] at wrote

private theorem fill_needs (holds : Holds slot []) {eventData : Text} {next : Buffer} (filled : Processor.fill slot eventData = some next) :
    Fits slot eventData := by
  simp only [Processor.fill, Option.bind_eq_bind, Option.bind_eq_some_iff] at filled
  obtain ⟨ready, tailed, written, wrote, _⟩ := filled
  have size : slot.size = 0 := UInt32.toNat_inj.mp holds.size
  have allocated := holds.allocated
  have bound := slot.capacity.toNat_lt
  rcases writeTail_fits wrote with fits | nothing
  · unfold Buffer.tail Buffer.validateCapacity at tailed
    by_cases room : UInt32.ofNat eventData.length ≤ slot.capacity - slot.size
    · rw [if_pos room] at tailed
      obtain rfl := Option.some.inj tailed
      left
      omega
    · rw [if_neg room] at tailed
      obtain ⟨_, asked, small, same⟩ := ensureCapacity_bounds tailed
      rw [size, UInt32.sub_zero, UInt32.le_iff_toNat_le, UInt32.toNat_ofNat'] at room
      rw [UInt32.toNat_add, UInt32.toNat_ofNat'] at asked
      right
      omega
  · left
    rw [nothing]
    exact Nat.zero_le _

end Slot

section Slots

variable {slots : List Buffer} {contents : List Text} {place : Nat}

theorem slot_at (same : List.Forall₂ Holds slots contents) {message : Text} (stored : contents[place]? = some message) :
    ∃ slot, slots[place]? = some slot ∧ Holds slot message := by
  induction same generalizing place with
  | nil => simp at stored
  | cons holds rest ih =>
    cases place with
    | zero =>
      obtain rfl := Option.some.inj stored
      exact ⟨_, rfl, holds⟩
    | succ place => exact ih stored

theorem slots_set (same : List.Forall₂ Holds slots contents) {slot : Buffer} {message : Text} (holds : Holds slot message) :
    List.Forall₂ Holds (slots.set place slot) (contents.set place message) := by
  induction same generalizing place with
  | nil => exact List.Forall₂.nil
  | cons first rest ih =>
    cases place with
    | zero => exact List.Forall₂.cons holds rest
    | succ place => exact List.Forall₂.cons first ih

end Slots

/-- Where `push` is, and what the slot that it has got holds there. -/
def PushAt (system : Processor) (abstract : TwoPhasePush.System) : Prop :=
  match system.push with
  | .outside => abstract.producer = .outside
  | .loadTail _ => abstract.producer = .loadTail
  | .write _ response => abstract.producer = .filling response ∧ abstract.ring.buffer[response.toNat]? = some []
  | .commit eventData response => abstract.producer = .filling response ∧ abstract.ring.buffer[response.toNat]? = some eventData

structure Simulates (system : Processor) (abstract : TwoPhasePush.System) : Prop where
  slots : List.Forall₂ Holds system.queue.buffer abstract.ring.buffer
  headCached : abstract.ring.headCached = system.queue.headCached
  headNext : abstract.ring.headNext = system.queue.headNext
  tail : abstract.ring.tail = system.queue.tail
  head : abstract.ring.head = system.queue.head
  worker : abstract.consumer = system.worker
  enqueued : abstract.committed = system.enqueued
  messages : abstract.messages = system.messages
  delivered : system.enqueued = system.pushed
  push : PushAt system abstract

variable {capacity : Capacity} {system : Processor} {abstract : TwoPhasePush.System}

private theorem initial_simulates (capacity : Capacity) : Simulates (Processor.initial capacity) (TwoPhasePush.System.initial capacity) where
  slots := by
    apply List.forall₂_iff_get.mpr
    refine ⟨by simp [Processor.initial, TwoPhasePush.System.initial], ?_⟩
    intro place inside also
    simp only [Processor.initial, TwoPhasePush.System.initial, List.get_eq_getElem, List.getElem_replicate]
    exact holds_initial
  headCached := rfl
  headNext := rfl
  tail := rfl
  head := rfl
  worker := rfl
  enqueued := rfl
  messages := rfl
  delivered := rfl
  push := rfl

/-- What `push` needs: `getItem` finds room in the ring, and the message fits the slot. -/
def Delivers (system : Processor) : Turn → Prop
  | .push _ =>
    match system.push with
    | .loadTail _ => system.queue.headNext ≠ system.queue.tail
    | .write eventData response => ∀ slot, system.queue.buffer[response.toNat]? = some slot → Fits slot eventData
    | _ => True
  | .worker => True

theorem slot_empty (valid : Valid capacity abstract) (place : abstract.producer = .loadTail)
    (room : abstract.ring.headNext ≠ abstract.ring.tail) : abstract.ring.buffer[abstract.ring.headCached.toNat]? = some [] := by
  have cached := valid.loadTail_at place
  have apart := mt (RingHandOver.full_iff cached valid).mpr room
  have close := RingHandOver.released_le abstract
  have more := valid.room
  have index : abstract.ring.headCached.toNat = abstract.committed.length % capacity.slots := by
    rw [cached.head]
    exact valid.head
  rw [index]
  apply valid.empty
  · simp only [untaken, place, Nat.add_zero, Nat.le_refl]
  · omega

private theorem write_simulates (valid : Valid capacity abstract) (simulates : Simulates system abstract) (eventData : Text)
    {message : Text} {response : UInt32} (place : system.push = .write message response)
    (known : abstract.producer = .filling response ∧ abstract.ring.buffer[response.toNat]? = some [])
    (fits : ∀ slot, system.queue.buffer[response.toNat]? = some slot → Fits slot message) :
    ∃ next after, system.pushStep capacity eventData = some next ∧ Valid capacity after ∧ Simulates next after := by
  obtain ⟨filling, empty⟩ := known
  obtain ⟨slot, present, holds⟩ := slot_at simulates.slots empty
  obtain ⟨next, filled, holding⟩ := fill_spec holds (fits slot present)
  obtain ⟨after, appended, kept⟩ := RingHandOver.append_valid valid filling message
  simp only [TwoPhasePush.System.append, empty, List.nil_append, Option.some.injEq] at appended
  subst appended
  refine ⟨{ system with
      queue := { system.queue with buffer := system.queue.buffer.set response.toNat next }
      push := .commit message response }, _, ?_, kept, { simulates with slots := ?_, push := ?_ }⟩
  · simp only [Processor.pushStep, place, present, filled, Option.bind_eq_bind, Option.bind_some, Option.pure_def]
  · exact slots_set simulates.slots holding
  · refine ⟨filling, ?_⟩
    have inside := (List.getElem?_eq_some_iff.mp empty).1
    exact List.getElem?_set_self inside

private theorem commit_simulates (valid : Valid capacity abstract) (simulates : Simulates system abstract) (eventData : Text)
    {message : Text} {response : UInt32} (place : system.push = .commit message response)
    (known : abstract.producer = .filling response ∧ abstract.ring.buffer[response.toNat]? = some message) :
    ∃ next after, system.pushStep capacity eventData = some next ∧ Valid capacity after ∧ Simulates next after := by
  obtain ⟨filling, stored⟩ := known
  obtain ⟨slot, present, holds⟩ := slot_at simulates.slots stored
  obtain ⟨after, committed, kept⟩ := RingHandOver.commit_valid valid filling
  simp only [TwoPhasePush.System.commit, stored, Option.some.injEq] at committed
  subst committed
  refine ⟨{ system with
      queue := { system.queue with head := system.queue.headNext }
      push := .outside
      pushed := system.pushed ++ [message]
      enqueued := system.enqueued ++ [message] }, _, ?_, kept, { simulates with head := ?_, enqueued := ?_, delivered := ?_, push := rfl }⟩
  · simp only [Processor.pushStep, place, present, content_holds holds, Option.bind_eq_bind, Option.bind_some, Option.pure_def]
  · exact simulates.headNext
  · dsimp only
    rw [simulates.enqueued]
  · dsimp only
    rw [simulates.delivered]

private theorem push_simulates (valid : Valid capacity abstract) (simulates : Simulates system abstract) (eventData : Text)
    (delivers : Delivers system (.push eventData)) : ∃ next after, system.pushStep capacity eventData = some next ∧
      Valid capacity after ∧ Simulates next after := by
  have known := simulates.push
  unfold PushAt at known
  unfold Delivers at delivers
  cases place : system.push with
  | outside =>
    simp only [place] at known
    have moved := RingHandOver.getItem_outside valid known
    simp only [TwoPhasePush.System.getItem, known] at moved
    simp only [Processor.pushStep, place]
    refine ⟨_, _, rfl, moved, { simulates with headCached := ?_, headNext := ?_, push := rfl }⟩
    · exact simulates.head
    · dsimp only
      rw [simulates.head]
  | loadTail message =>
    simp only [place] at known delivers
    have room : abstract.ring.headNext ≠ abstract.ring.tail := by rwa [simulates.headNext, simulates.tail]
    have empty := slot_empty valid known room
    have moved := RingHandOver.getItem_loadTail valid known
    simp only [TwoPhasePush.System.getItem, known, if_neg room] at moved
    simp only [Processor.pushStep, place, if_neg delivers]
    refine ⟨_, _, rfl, moved, { simulates with push := ?_ }⟩
    rw [← simulates.headCached]
    exact ⟨rfl, empty⟩
  | write message response =>
    simp only [place] at known delivers
    exact write_simulates valid simulates eventData place known delivers
  | commit message response =>
    simp only [place] at known
    exact commit_simulates valid simulates eventData place known

theorem PushAt.same {next : Processor} {after : TwoPhasePush.System} (known : PushAt system abstract) (push : next.push = system.push)
    (producer : after.producer = abstract.producer)
    (slot : ∀ response : UInt32, abstract.producer = .filling response →
      after.ring.buffer[response.toNat]? = abstract.ring.buffer[response.toNat]?) : PushAt next after := by
  unfold PushAt at known ⊢
  rw [push, producer]
  cases place : system.push with
  | outside => simpa only [place] using known
  | loadTail eventData => simpa only [place] using known
  | write eventData response =>
    simp only [place] at known ⊢
    rw [slot response known.1]
    exact known
  | commit eventData response =>
    simp only [place] at known ⊢
    rw [slot response known.1]
    exact known

theorem clearing_apart (valid : Valid capacity abstract) {item response : UInt32} (clearing : abstract.consumer = .clearing item)
    (filling : abstract.producer = .filling response) : item.toNat ≠ response.toNat := by
  obtain ⟨positive, index⟩ : 0 < abstract.messages.length ∧ item.toNat = (abstract.messages.length - 1) % capacity.slots :=
    valid.consumer_at clearing
  obtain ⟨cached, same, room⟩ := valid.filling_at filling
  have place := valid.filling_index filling
  have behind := valid.behind
  have all : released abstract = abstract.messages.length := by simp only [released, clearing, Nat.add_zero]
  rw [index, place]
  exact slot_ne (by omega) (by omega)

private theorem reading_follows {after : TwoPhasePush.System} (simulates : Simulates system abstract) {item : UInt32} (place : system.worker = .reading item)
    (popped : abstract.pop capacity = some after) : ∃ next, system.workerStep capacity = some next ∧ Simulates next after := by
  have stage := simulates.worker
  rw [place] at stage
  simp only [TwoPhasePush.System.pop, stage] at popped
  cases stored : abstract.ring.buffer[item.toNat]? with
  | none => simp [stored] at popped
  | some message =>
    simp only [stored, Option.some.injEq] at popped
    subst popped
    obtain ⟨slot, present, holds⟩ := slot_at simulates.slots stored
    refine ⟨{ system with worker := .clearing item, messages := system.messages ++ [message] }, ?_,
      { simulates with worker := rfl, messages := ?_, push := simulates.push.same rfl rfl (fun _ _ => rfl) }⟩
    · simp only [Processor.workerStep, place, present, content_holds holds, Option.bind_eq_bind, Option.bind_some, Option.pure_def]
    · dsimp only
      rw [simulates.messages]

theorem clearing_follows {after : TwoPhasePush.System} (valid : Valid capacity abstract) (simulates : Simulates system abstract) {item : UInt32}
    (place : system.worker = .clearing item) (popped : abstract.pop capacity = some after) :
    ∃ next, system.workerStep capacity = some next ∧ Simulates next after := by
  have stage := simulates.worker
  rw [place] at stage
  simp only [TwoPhasePush.System.pop, stage] at popped
  split at popped
  next inside =>
    rw [Option.some.injEq] at popped
    subst popped
    obtain ⟨slot, present, holds⟩ := slot_at simulates.slots (List.getElem?_eq_getElem inside)
    refine ⟨{ system with
        queue := { system.queue with buffer := system.queue.buffer.set item.toNat slot.clear }
        worker := .outside }, ?_, { simulates with slots := ?_, worker := rfl, push := ?_ }⟩
    · simp only [Processor.workerStep, place, present, Option.bind_eq_bind, Option.bind_some, Option.pure_def]
    · exact slots_set simulates.slots (holds_clear holds)
    · refine PushAt.same simulates.push rfl rfl ?_
      intro response filling
      exact List.getElem?_set_ne (clearing_apart valid stage filling)
  next => simp at popped

theorem worker_follows {after : TwoPhasePush.System} (valid : Valid capacity abstract) (simulates : Simulates system abstract)
    (popped : abstract.pop capacity = some after) : ∃ next, system.workerStep capacity = some next ∧ Simulates next after := by
  have stage := simulates.worker
  cases place : system.worker with
  | outside =>
    rw [place] at stage
    simp only [TwoPhasePush.System.pop, stage, Option.some.injEq] at popped
    subst popped
    refine ⟨{ system with worker := .loadHead system.queue.tail }, by simp only [Processor.workerStep, place],
      { simulates with worker := ?_, push := simulates.push.same rfl rfl (fun _ _ => rfl) }⟩
    dsimp only
    rw [simulates.tail]
  | loadHead tailLocal =>
    rw [place] at stage
    simp only [TwoPhasePush.System.pop, stage, simulates.head] at popped
    by_cases none : tailLocal = system.queue.head
    · rw [if_pos none, Option.some.injEq] at popped
      subst popped
      exact ⟨{ system with worker := .outside }, by simp only [Processor.workerStep, place, if_pos none],
        { simulates with worker := rfl, push := simulates.push.same rfl rfl (fun _ _ => rfl) }⟩
    · rw [if_neg none, Option.some.injEq] at popped
      subst popped
      exact ⟨{ system with worker := .storeTail tailLocal }, by simp only [Processor.workerStep, place, if_neg none],
        { simulates with worker := rfl, push := simulates.push.same rfl rfl (fun _ _ => rfl) }⟩
  | storeTail tailLocal =>
    rw [place] at stage
    simp only [TwoPhasePush.System.pop, stage, Option.some.injEq] at popped
    subst popped
    exact ⟨{ system with
        queue := { system.queue with tail := fastModulo (tailLocal + 1) capacity.value }
        worker := .reading tailLocal }, by simp only [Processor.workerStep, place],
      { simulates with tail := rfl, worker := rfl, push := simulates.push.same rfl rfl (fun _ _ => rfl) }⟩
  | reading item => exact reading_follows simulates place popped
  | clearing item => exact clearing_follows valid simulates place popped

theorem worker_simulates (valid : Valid capacity abstract) (simulates : Simulates system abstract) :
    ∃ next after, system.workerStep capacity = some next ∧ Valid capacity after ∧ Simulates next after := by
  obtain ⟨after, popped, kept⟩ := RingHandOver.pop_valid valid
  obtain ⟨next, moved, simulating⟩ := worker_follows valid simulates popped
  exact ⟨next, after, moved, kept, simulating⟩

/-- The ring of contents behind a reached state. -/
def Reached (capacity : Capacity) (_ : List Turn) (system : Processor) : Prop :=
  ∃ abstract, Valid capacity abstract ∧ Simulates system abstract

theorem step_reached {before : List Turn} (reached : Reached capacity before system) (turn : Turn) (delivers : Delivers system turn) :
    ∃ next, Processor.step capacity system turn = some next ∧ Reached capacity (before ++ [turn]) next := by
  obtain ⟨abstract, valid, simulates⟩ := reached
  cases turn with
  | push eventData =>
    obtain ⟨next, after, moved, kept, simulating⟩ := push_simulates valid simulates eventData delivers
    exact ⟨next, moved, after, kept, simulating⟩
  | worker =>
    obtain ⟨next, after, moved, kept, simulating⟩ := worker_simulates valid simulates
    exact ⟨next, moved, after, kept, simulating⟩

/-- A step of `push` that goes well had a slot, and a message that fits it. -/
theorem step_needs {before : List Turn} (reached : Reached capacity before system) {turn : Turn} {next : Processor}
    (moved : Processor.step capacity system turn = some next) : Delivers system turn := by
  obtain ⟨abstract, valid, simulates⟩ := reached
  cases turn with
  | worker => trivial
  | push eventData =>
    have known := simulates.push
    unfold PushAt at known
    simp only [Processor.step, Processor.pushStep] at moved
    unfold Delivers
    cases place : system.push with
    | outside => trivial
    | commit message response => trivial
    | loadTail message =>
      intro full
      simp only [place, if_pos full] at moved
      simp at moved
    | write message response =>
      simp only [place] at known moved ⊢
      intro slot present
      obtain ⟨same, stored, holds⟩ := slot_at simulates.slots known.2
      obtain rfl := Option.some.inj (stored.symm.trans present)
      simp only [present, Option.bind_eq_bind, Option.bind_some, Option.bind_eq_some_iff] at moved
      obtain ⟨filled, fills, _⟩ := moved
      exact fill_needs holds fills

/-- Every push that returned has enqueued its message as one item, the worker got them in order,
and the slots of those that it has not got yet hold exactly their bytes. -/
structure HandedOver (capacity : Capacity) (system : Processor) : Prop where
  enqueued : system.enqueued = system.pushed
  ordered : system.messages <+: system.pushed
  slots : ∀ position message, system.messages.length ≤ position → system.pushed[position]? = some message →
    ∃ slot, system.queue.buffer[position % capacity.slots]? = some slot ∧ Processor.content slot = some message
  head : IndexOf capacity.value system.queue.head system.pushed.length

theorem Reached.handedOver {before : List Turn} (reached : Reached capacity before system) : HandedOver capacity system := by
  obtain ⟨abstract, valid, simulates⟩ := reached
  have enqueued : abstract.committed = system.pushed := simulates.enqueued.trans simulates.delivered
  constructor
  · exact simulates.delivered
  · rw [← enqueued, ← simulates.messages]
    exact valid.ordered
  · intro position message reached present
    rw [← enqueued] at present
    rw [← simulates.messages] at reached
    obtain ⟨slot, stored, holds⟩ := slot_at simulates.slots (valid.window position message reached present)
    exact ⟨slot, stored, content_holds holds⟩
  · rw [← enqueued, ← simulates.head]
    exact valid.head

/-- Whatever the interleaving of pushes and the worker, messages are handed over as they are, in every state,
exactly where each push finds room in the ring and in its slot. -/
theorem push_handedOver_iff (capacity : Capacity) (turns : List Turn) :
    (∀ before, before <+: turns → ∃ system, before.foldlM (Processor.step capacity) (Processor.initial capacity) = some system ∧
        HandedOver capacity system) ↔
      Runs.AtEveryStepM (Processor.step capacity) Delivers (Processor.initial capacity) turns := by
  have shows : ∀ before system, Reached capacity before system →
      ∃ shown, some system = some shown ∧ HandedOver capacity shown :=
    fun before system reached => ⟨system, rfl, reached.handedOver⟩
  apply Runs.history_iff (fun _ result => ∃ system, result = some system ∧ HandedOver capacity system) shows
  · intro before turn middle _ _ reached delivers
    exact step_reached reached turn delivers
  · intro before turn middle _ _ reached good
    obtain ⟨next, moved, _⟩ := good
    exact step_needs reached moved
  · exact ⟨_, RingHandOver.initial_valid capacity, initial_simulates capacity⟩

/-- A ring of two slots takes one message; the push of a second one finds it full. -/
theorem push_full_ring : ¬ ∀ (capacity : Capacity) (turns : List Turn) (before : List Turn), before <+: turns →
    ∃ system, before.foldlM (Processor.step capacity) (Processor.initial capacity) = some system ∧ HandedOver capacity system := by
  intro all
  obtain ⟨system, ran, _⟩ := all ⟨2, by decide⟩ (List.replicate 6 (.push [1])) _ List.prefix_rfl
  have failed : ((List.replicate 6 (Turn.push [1])).foldlM (Processor.step ⟨2, by decide⟩)
      (Processor.initial ⟨2, by decide⟩)).isNone = true := by decide
  rw [ran] at failed
  simp at failed

end FinanceTech.Proofs.FeedPush
