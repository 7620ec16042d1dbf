import FinanceTech.Proofs.RingQueue

/-! The ring that copies its items out and back steps as the ring that moves them
does: an item that is held or changed is one that is about to be written. What the
producer is handed is not what it commits, so the item of the abstract call is only
known once `commit` begins. -/

namespace FinanceTech.Proofs.RingCommit
open List Library RingWindow RingBuffers RingBuffers.WithCommit

universe u

variable {T : Type u} [Inhabited T] {capacity : Capacity} {system : System T}

/-- The same ring, between `put` and `pop`. -/
def asBasic (system : System T) : Basic.System T where
  ring := { buffer := system.ring.buffer, tail := system.ring.tail, head := system.ring.head }
  put := match system.producer with
    | .outside => .outside
    | .loadTail => .loadTail default system.ring.headCached system.ring.headNext
    | .copy | .holding _ => .write default system.ring.headCached system.ring.headNext
    | .write item => .write item system.ring.headCached system.ring.headNext
    | .storeHead item => .storeHead item system.ring.headCached system.ring.headNext
  pop := system.pop
  accepted := system.committed
  popped := system.popped

abbrev Valid (capacity : Capacity) (system : System T) : Prop := RingQueue.Valid capacity (asBasic system)

theorem initial_valid (capacity : Capacity) : Valid capacity (System.initial capacity : System T) :=
  RingQueue.initial_valid capacity

theorem produce_valid_of {next : System T} {item : T} (valid : Valid capacity system)
    (follows : (asBasic system).producer capacity item = some (asBasic next)) : Valid capacity next := by
  obtain ⟨after, moved, kept⟩ := RingQueue.producer_valid valid item
  obtain rfl := Option.some.inj (follows.symm.trans moved)
  exact kept

private theorem slot_inside (valid : Valid capacity system) {item : T}
    (place : (asBasic system).put = .write item system.ring.headCached system.ring.headNext) :
    system.ring.headCached.toNat < system.ring.buffer.length := by
  obtain ⟨begun, -⟩ := valid.write_at place
  have size : system.ring.buffer.length = capacity.slots := valid.size
  rw [size, begun.current]
  exact valid.head.below capacity.powerOfTwo

private theorem produce_valid (valid : Valid capacity system) : ∃ next, system.produce capacity = some next ∧ Valid capacity next := by
  cases place : system.producer with
  | outside =>
    have moved : system.produce capacity = some { system with
        ring := { system.ring with headCached := system.ring.head, headNext := fastModulo (system.ring.head + 1) capacity.value }
        producer := .loadTail } := by
      simp only [System.produce, place]
    refine ⟨_, moved, @produce_valid_of _ _ _ _ _ default valid ?_⟩
    simp only [Basic.System.producer, asBasic, place]
  | loadTail =>
    by_cases full : system.ring.headNext = system.ring.tail
    · have moved : system.produce capacity = some { system with producer := .outside } := by
        simp only [System.produce, place, if_pos full]
      refine ⟨_, moved, @produce_valid_of _ _ _ _ _ default valid ?_⟩
      simp only [Basic.System.producer, asBasic, place, if_pos full]
    · have moved : system.produce capacity = some { system with producer := .copy } := by
        simp only [System.produce, place, if_neg full]
      refine ⟨_, moved, @produce_valid_of _ _ _ _ _ default valid ?_⟩
      simp only [Basic.System.producer, asBasic, place, if_neg full]
  | copy =>
    have inside := @slot_inside _ _ _ _ valid default (by simp only [asBasic, place])
    have moved : system.produce capacity = some { system with
        producer := .holding system.ring.buffer[system.ring.headCached.toNat] } := by
      simp only [System.produce, place, getElem?_eq_getElem inside]
    refine ⟨_, moved, ?_⟩
    have same : asBasic { system with producer := .holding system.ring.buffer[system.ring.headCached.toNat] } =
        asBasic system := by simp only [asBasic, place]
    unfold Valid
    rw [same]
    exact valid
  | holding item =>
    have moved : system.produce capacity = some system := by simp only [System.produce, place]
    exact ⟨_, moved, valid⟩
  | write item =>
    have inside := @slot_inside _ _ _ _ valid item (by simp only [asBasic, place])
    have moved : system.produce capacity = some { system with
        ring := { system.ring with buffer := system.ring.buffer.set system.ring.headCached.toNat item }
        producer := .storeHead item } := by
      simp only [System.produce, place, if_pos inside]
    refine ⟨_, moved, @produce_valid_of _ _ _ _ _ item valid ?_⟩
    simp only [Basic.System.producer, asBasic, place, if_pos inside]
  | storeHead item =>
    have moved : system.produce capacity = some { system with
        ring := { system.ring with head := system.ring.headNext }
        producer := .outside
        committed := system.committed ++ [(item, system.ring.headCached)] } := by
      simp only [System.produce, place]
    refine ⟨_, moved, @produce_valid_of _ _ _ _ _ item valid ?_⟩
    simp only [Basic.System.producer, asBasic, place]

/-- `pop` is that of the other ring, with a move that leaves the item where it is. -/
theorem consume_follows (system : System T) :
    (system.consume capacity).map asBasic = (asBasic system).consumer capacity id := by
  cases place : system.pop with
  | outside => simp only [System.consume, Basic.System.consumer, asBasic, place, Option.map_some]
  | storeTail item tailLocal => simp only [System.consume, Basic.System.consumer, asBasic, place, Option.map_some]
  | loadHead tailLocal =>
    simp only [System.consume, Basic.System.consumer, asBasic, place]
    split <;> rfl
  | read tailLocal =>
    simp only [System.consume, Basic.System.consumer, asBasic, place]
    cases stored : system.ring.buffer[tailLocal.toNat]? with
    | none => rfl
    | some item =>
      obtain ⟨inside, same⟩ := List.getElem?_eq_some_iff.mp stored
      have kept : system.ring.buffer.set tailLocal.toNat item = system.ring.buffer := by
        rw [← same]
        exact set_getElem_self inside
      simp only [Option.map_some, id, kept]
      rfl

private theorem consume_valid (valid : Valid capacity system) : ∃ next, system.consume capacity = some next ∧ Valid capacity next := by
  obtain ⟨after, moved, kept⟩ := RingQueue.consumer_valid id valid
  rw [← consume_follows, Option.map_eq_some_iff] at moved
  obtain ⟨next, consumed, rfl⟩ := moved
  exact ⟨next, consumed, kept⟩

private theorem Valid.relabel (valid : Valid capacity system) {held item : T} {producer : Producer T}
    (place : (asBasic system).put = .write held system.ring.headCached system.ring.headNext)
    (put : (asBasic { system with producer }).put = .write item system.ring.headCached system.ring.headNext) :
    Valid capacity { system with producer } := by
  have known := valid.write_at place
  have moved : asBasic { system with producer } =
      { asBasic system with put := .write item system.ring.headCached system.ring.headNext } := by
    rw [← put]
    rfl
  unfold Valid
  rw [moved]
  exact RingQueue.Valid.with_put valid ⟨⟨known.1.current, known.1.next⟩, known.2⟩

theorem step_valid (valid : Valid capacity system) (turn : Turn T) :
    ∃ next, system.step capacity turn = some next ∧ Valid capacity next := by
  cases turn with
  | consumer => exact consume_valid valid
  | modify change =>
    cases place : system.producer with
    | holding item =>
      have moved : system.step capacity (.modify change) = some { system with producer := .holding (change item) } := by
        simp only [System.step, place]
      have writes : (asBasic system).put = .write default system.ring.headCached system.ring.headNext := by
        simp only [asBasic, place]
      exact ⟨_, moved, valid.relabel writes rfl⟩
    | _ =>
      simp only [System.step, place]
      exact produce_valid valid
  | commit =>
    cases place : system.producer with
    | holding item =>
      have moved : system.step capacity .commit = some { system with producer := .write item } := by
        simp only [System.step, place]
      have writes : (asBasic system).put = .write default system.ring.headCached system.ring.headNext := by
        simp only [asBasic, place]
      exact ⟨_, moved, valid.relabel writes rfl⟩
    | _ =>
      simp only [System.step, place]
      exact produce_valid valid

def InSlot (system : System T) : Prop :=
  match system.producer with
  | .copy | .holding _ | .write _ => True
  | _ => False

/-- What the two threads can rely on. -/
structure Queue (capacity : Capacity) (system : System T) : Prop where
  ordered : system.popped <+: system.committed.map Prod.fst
  kept : ∀ position item slot, RingQueue.reads (asBasic system) ≤ position → system.committed[position]? = some (item, slot) →
    system.ring.buffer[slot.toNat]? = some item
  exclusive : InSlot system → ∀ position item slot, system.popped.length ≤ position →
    system.committed[position]? = some (item, slot) → slot ≠ system.ring.headCached
  full : system.producer = .loadTail → system.ring.headNext = system.ring.tail →
    system.committed.length = system.popped.length + (capacity.slots - 1)

theorem InSlot.writes (inside : InSlot system) :
    ∃ item, (asBasic system).put = .write item system.ring.headCached system.ring.headNext := by
  unfold InSlot at inside
  unfold asBasic
  cases place : system.producer with
  | copy | holding => exact ⟨default, rfl⟩
  | write item => exact ⟨item, rfl⟩
  | outside | loadTail | storeHead =>
    rw [place] at inside
    cases inside

theorem Valid.queue (valid : Valid capacity system) : Queue capacity system := by
  have queue := RingQueue.Valid.queue valid
  refine ⟨queue.ordered, queue.kept, ?_, ?_⟩
  · intro inside position item slot reached present same
    obtain ⟨held, writes⟩ := inside.writes
    obtain ⟨begun, room⟩ := valid.write_at writes
    have before := (List.getElem?_eq_some_iff.mp present).1
    have apart := @slot_ne capacity.slots position system.committed.length before (by
      have known : system.committed.length + 2 ≤ system.popped.length + capacity.slots := room
      omega)
    apply apart
    have index : slot.toNat = position % capacity.slots := valid.places position item slot present
    rw [← index, same, begun.current]
    exact valid.head
  · intro loads full
    refine queue.full default system.ring.headCached system.ring.headNext ?_ full
    simp only [asBasic, loads]

/-- For every power of two and every interleaving of any number of calls, with any changes to the
items in between, the ring is a queue of the items committed, and no step leaves its vector. -/
theorem run_commits (capacity : Capacity) (turns : List (Turn T)) :
    ∃ system, turns.foldlM (System.step capacity) (System.initial capacity) = some system ∧ Queue capacity system := by
  obtain ⟨system, reached, valid⟩ := Runs.foldlM_succeeds
    (fun system turn (valid : Valid capacity system) => step_valid valid turn) turns (initial_valid capacity)
  exact ⟨system, reached, valid.queue⟩

end FinanceTech.Proofs.RingCommit
