import FinanceTech.Proofs.RingHandOver
import FinanceTech.Proofs.RingQueue

/-! What the two rings say of themselves. The size is the difference of the
indices, which are kept modulo the capacity, so it is right until the head has
wrapped and the tail has not; and as one slot always stays free, it is never the
capacity that a full ring is told by. -/

namespace FinanceTech.Proofs.RingSize
open Library RingWindow RingBuffers

universe u

variable {T : Type u} {capacity : Capacity}

structure Counts (capacity : Capacity) (head tail : UInt32) (accepted popped : Nat) : Prop where
  head : IndexOf capacity.value head accepted
  tail : IndexOf capacity.value tail popped
  behind : popped ≤ accepted
  room : accepted + 1 ≤ popped + capacity.slots

section Counts

variable {head tail : UInt32} {accepted popped : Nat}

private theorem Counts.size_iff (counts : Counts capacity head tail accepted popped) :
    (head - tail).toNat = accepted - popped ↔ tail ≤ head := by
  have room := counts.room
  exact counts.tail.sub_eq_iff counts.head capacity.powerOfTwo counts.behind room

theorem Counts.full_iff (counts : Counts capacity head tail accepted popped) {refused : Prop}
    (refuses : refused ↔ accepted + 1 = popped + capacity.slots) :
    ((head - tail = capacity.value) ↔ refused) ↔ accepted + 1 < popped + capacity.slots := by
  have never := counts.tail.sub_ne counts.head capacity.powerOfTwo
  have room := counts.room
  rw [iff_false_left never, refuses]
  omega

end Counts

def isOutside : Basic.Put T → Bool
  | .outside => true
  | _ => false

/-- The next call of `put`, when it runs on, returns false. -/
def RefusesPut (capacity : Capacity) (system : Basic.System T) (item : T) : Prop :=
  ∃ refused, (system.producer capacity item).bind (fun begun => begun.producer capacity item) = some refused ∧
    isOutside refused.put = true

private theorem refusesPut_iff {system : Basic.System T} (valid : RingQueue.Valid capacity system) (outside : system.put = .outside) (item : T) :
    RefusesPut capacity system item ↔ system.accepted.length + 1 = system.popped.length + capacity.slots := by
  have moved : system.producer capacity item = some { system with
      put := .loadTail item system.ring.head (fastModulo (system.ring.head + 1) capacity.value) } := by
    simp only [Basic.System.producer, outside]
  have begun : RingQueue.Valid capacity { system with
      put := .loadTail item system.ring.head (fastModulo (system.ring.head + 1) capacity.value) } := valid.with_put ⟨rfl, rfl⟩
  rw [← RingQueue.full_iff ⟨rfl, rfl⟩ begun, RefusesPut, moved, Option.bind_some]
  by_cases full : fastModulo (system.ring.head + 1) capacity.value = system.ring.tail
  · refine iff_of_true ⟨{ system with put := .outside }, ?_, rfl⟩ full
    simp only [Basic.System.producer, if_pos full]
  · refine iff_of_false ?_ full
    rintro ⟨refused, loaded, stays⟩
    simp only [Basic.System.producer, if_neg full, Option.some.injEq] at loaded
    rw [← loaded] at stays
    cases stays

/-- What the ring says is right, and when. -/
structure Told (capacity : Capacity) (system : Basic.System T) : Prop where
  size : system.ring.size.toNat = system.accepted.length - system.popped.length ↔ system.ring.tail ≤ system.ring.head
  full : system.put = .outside → ∀ item, (system.ring.full capacity = true ↔ RefusesPut capacity system item) ↔
    system.accepted.length + 1 < system.popped.length + capacity.slots

theorem told {system : Basic.System T} (valid : RingQueue.Valid capacity system) : Told capacity system := by
  have counts : Counts capacity system.ring.head system.ring.tail system.accepted.length system.popped.length :=
    ⟨valid.head, valid.tail, RingQueue.popped_le valid, valid.room⟩
  refine ⟨counts.size_iff, fun outside item => ?_⟩
  rw [Basic.RingBuffer.full, decide_eq_true_iff]
  exact counts.full_iff (refusesPut_iff valid outside item)

def RefusesGetItem (capacity : Capacity) (system : TwoPhasePush.System) : Prop :=
  ((system.getItem capacity).getItem capacity).producer = .outside

private theorem refusesGetItem_iff {system : TwoPhasePush.System} (valid : RingHandOver.Valid capacity system)
    (outside : system.producer = .outside) :
    RefusesGetItem capacity system ↔ system.committed.length + 1 = RingHandOver.released system + capacity.slots := by
  have moved : system.getItem capacity = { system with
      ring := { system.ring with headCached := system.ring.head, headNext := fastModulo (system.ring.head + 1) capacity.value }
      producer := .loadTail } := by
    simp only [TwoPhasePush.System.getItem, outside]
  have begun := RingHandOver.getItem_outside valid outside
  rw [moved] at begun
  have full := RingHandOver.full_iff (begun.loadTail_at rfl) begun
  rw [RefusesGetItem, moved]
  refine Iff.trans ?_ full
  by_cases same : fastModulo (system.ring.head + 1) capacity.value = system.ring.tail
  · exact iff_of_true (by simp only [TwoPhasePush.System.getItem, if_pos same]) same
  · exact iff_of_false (by simp [TwoPhasePush.System.getItem, if_neg same]) same

structure HandedTold (capacity : Capacity) (system : TwoPhasePush.System) : Prop where
  size : system.ring.size.toNat = system.committed.length - RingHandOver.released system ↔ system.ring.tail ≤ system.ring.head
  full : system.producer = .outside → ((system.ring.full capacity = true ↔ RefusesGetItem capacity system) ↔
    system.committed.length + 1 < RingHandOver.released system + capacity.slots)

private theorem handedTold {system : TwoPhasePush.System} (valid : RingHandOver.Valid capacity system) : HandedTold capacity system := by
  have counts : Counts capacity system.ring.head system.ring.tail system.committed.length (RingHandOver.released system) :=
    ⟨valid.head, valid.tail, valid.behind, valid.room⟩
  refine ⟨counts.size_iff, fun outside => ?_⟩
  rw [TwoPhasePush.RingBuffer.full, decide_eq_true_iff]
  exact counts.full_iff (refusesGetItem_iff valid outside)

/-- In every state of both rings that any interleaving of calls reaches, the size
is right exactly when the tail is not above the head, and full is right exactly
when there is room for another item. -/
theorem size_full_iff [Inhabited T] (capacity : Capacity) (moved : T → T) (turns : List (Basic.Turn T))
    (calls : List TwoPhasePush.Turn) :
    (∃ system, turns.foldlM (Basic.System.step capacity moved) (Basic.System.initial capacity) = some system ∧ Told capacity system) ∧
      ∃ system, calls.foldlM (TwoPhasePush.System.step capacity) (TwoPhasePush.System.initial capacity) = some system ∧
        HandedTold capacity system := by
  constructor
  · have progress : ∀ (system : Basic.System T) turn, RingQueue.Valid capacity system →
        ∃ next, Basic.System.step capacity moved system turn = some next ∧ RingQueue.Valid capacity next := by
      intro system turn valid
      cases turn with
      | producer item => exact RingQueue.producer_valid valid item
      | consumer => exact RingQueue.consumer_valid moved valid
    obtain ⟨system, reached, valid⟩ := Runs.foldlM_succeeds progress turns (RingQueue.initial_valid capacity)
    exact ⟨system, reached, told valid⟩
  · have progress : ∀ system turn, RingHandOver.Valid capacity system →
        ∃ next, TwoPhasePush.System.step capacity system turn = some next ∧ RingHandOver.Valid capacity next :=
      fun _ turn valid => RingHandOver.step_valid valid turn
    obtain ⟨system, reached, valid⟩ := Runs.foldlM_succeeds progress calls (RingHandOver.initial_valid capacity)
    exact ⟨system, reached, handedTold valid⟩

/-- In a ring of two one item is put, popped and another one put: the ring is
wrapped and full, it says it has 4294967295 items, and not that it is full. -/
theorem wrapped_ring :
    let capacity : Capacity := ⟨2, by decide⟩
    let put : List (Basic.Turn Nat) := List.replicate 4 (.producer 7)
    let pop : List (Basic.Turn Nat) := List.replicate 4 .consumer
    ∃ system, (put ++ pop ++ put).foldlM (Basic.System.step capacity id) (Basic.System.initial capacity) = some system ∧
      system.accepted.length = 2 ∧ system.popped.length = 1 ∧ system.ring.size = 4294967295 ∧
      system.ring.full capacity = false ∧ RefusesPut capacity system 7 := by
  intro capacity put pop
  have ended : ((put ++ pop ++ put).foldlM (Basic.System.step capacity id) (Basic.System.initial capacity)).map (fun system =>
      (system.accepted.length, system.popped.length, system.ring.size, system.ring.full capacity,
        ((system.producer capacity 7).bind fun begun => begun.producer capacity 7).map fun refused => isOutside refused.put)) =
      some (2, 1, 4294967295, false, some true) := by decide
  obtain ⟨system, reached, shown⟩ := Option.map_eq_some_iff.mp ended
  simp only [Prod.mk.injEq] at shown
  obtain ⟨accepted, popped, size, full, refuses⟩ := shown
  exact ⟨system, reached, accepted, popped, size, full, Option.map_eq_some_iff.mp refuses⟩

end FinanceTech.Proofs.RingSize
