import FinanceTech.Library.BoundedQueue
import FinanceTech.Library.Runs
import FinanceTech.OverwritingRings

/-! The ring of the logger. Its indices wrap when they are used next, the one a
put writes at and the one a get reads at, and it is a queue that drops its oldest
item until it is put an item while both stand at the end. -/

namespace FinanceTech.Proofs.LoggerRing
open List Library BoundedQueue LowLatencyLogger

universe u

variable {T : Type u} {size : Nat} {ring : RingBuffer T}

structure Inside (size : Nat) (ring : RingBuffer T) : Prop where
  allocated : ring.buffer.length = size
  reads : ring.idxRead ≤ size
  writes : ring.idxWrite ≤ size

theorem new_inside [Inhabited T] (size : Nat) : Inside size (RingBuffer.new size : RingBuffer T) :=
  ⟨length_replicate, Nat.zero_le _, Nat.zero_le _⟩

def turned (size index : Nat) : Nat := if index = size then 0 else index

@[simp] theorem turned_self (size : Nat) : turned size size = 0 := if_pos rfl

private theorem turned_ne {index : Nat} (inside : index ≠ size) : turned size index = index := if_neg inside

private theorem turned_lt {index : Nat} (inside : index ≤ size) (positive : 0 < size) : turned size index < size := by
  unfold turned
  split <;> omega

/-- The flag as a put sees it. -/
def wrapped (size : Nat) (ring : RingBuffer T) : Bool := ring.overflow || decide (ring.idxWrite = size)

def afterPut (size : Nat) (ring : RingBuffer T) (item : T) : RingBuffer T :=
  { idxRead := if wrapped size ring = true ∧ turned size ring.idxWrite = ring.idxRead then ring.idxRead + 1 else ring.idxRead
    idxWrite := turned size ring.idxWrite + 1
    overflow := wrapped size ring
    buffer := ring.buffer.set (turned size ring.idxWrite) item }

def afterGet (size : Nat) (ring : RingBuffer T) (left : T) : RingBuffer T :=
  { ring with
    idxRead := turned size ring.idxRead + 1
    overflow := ring.overflow && decide (ring.idxRead ≠ size)
    buffer := ring.buffer.set (turned size ring.idxRead) left }

theorem put_eq (inside : Inside size ring) (positive : 0 < size) (item : T) : ring.put item = some (afterPut size ring item) := by
  have below := turned_lt inside.writes positive
  obtain ⟨rfl, -, -⟩ := inside
  have stored : Slots.store ring.buffer (turned ring.buffer.length ring.idxWrite) item =
      some (ring.buffer.set (turned ring.buffer.length ring.idxWrite) item) := if_pos below
  have turn : (if ring.idxWrite = ring.buffer.length then { ring with idxWrite := 0, overflow := true } else ring) =
      { ring with idxWrite := turned ring.buffer.length ring.idxWrite, overflow := wrapped ring.buffer.length ring } := by
    by_cases last : ring.idxWrite = ring.buffer.length <;> simp [turned, wrapped, last]
  simp only [RingBuffer.put, afterPut, turn]
  by_cases full : wrapped ring.buffer.length ring = true ∧ turned ring.buffer.length ring.idxWrite = ring.idxRead
  · simp only [if_pos full, stored, Option.bind_eq_bind, Option.bind_some]
  · simp only [if_neg full, stored, Option.bind_eq_bind, Option.bind_some]

private theorem get_empty (moved : T → T) (unset : ring.overflow = false) (same : ring.idxWrite = ring.idxRead) :
    ring.get moved = some (ring, none) := if_pos ⟨by rw [unset]; rfl, same⟩

private theorem get_eq (moved : T → T) (inside : Inside size ring) (positive : 0 < size)
    (held : ring.overflow = false → ring.idxWrite ≠ ring.idxRead) {value : T}
    (present : ring.buffer[turned size ring.idxRead]? = some value) :
    ring.get moved = some (afterGet size ring (moved value), some value) := by
  have below := turned_lt inside.reads positive
  obtain ⟨rfl, -, -⟩ := inside
  have stored : Slots.store ring.buffer (turned ring.buffer.length ring.idxRead) (moved value) =
      some (ring.buffer.set (turned ring.buffer.length ring.idxRead) (moved value)) := if_pos below
  have unread : ¬ ((!ring.overflow) = true ∧ ring.idxWrite = ring.idxRead) := by
    rintro ⟨unset, same⟩
    rw [Bool.not_eq_true'] at unset
    exact held unset same
  rw [RingBuffer.get, if_neg unread]
  by_cases last : ring.idxRead = ring.buffer.length
  · rw [last, turned_self] at stored present
    simp [afterGet, last, present, stored]
  · rw [turned_ne last] at stored present
    simp [afterGet, turned_ne last, last, present, stored]

variable {queue : List T} {lap : Nat}

/-- The oldest item is at the read index of some lap, and the write index is one
of the same lap or, once the flag is set, of the next. -/
structure Holds (size : Nat) (ring : RingBuffer T) (queue : List T) (lap : Nat) : Prop where
  round : size ∣ lap
  stores : Stores size ring.buffer queue (lap + ring.idxRead)
  reads : ring.idxRead ≤ size
  writes : ring.idxWrite ≤ size
  behind : ring.idxRead + queue.length = (if ring.overflow then size else 0) + ring.idxWrite
  ahead : ring.overflow = true → 0 < ring.idxWrite

theorem new_holds [Inhabited T] (size : Nat) : Holds size (RingBuffer.new size : RingBuffer T) [] 0 :=
  ⟨Nat.dvd_zero _, Stores.empty length_replicate 0, Nat.zero_le _, Nat.zero_le _, rfl, fun set => nomatch set⟩

theorem slot_turned (round : size ∣ lap) {index : Nat} (inside : index ≤ size) :
    (lap + index) % size = turned size index := by
  obtain ⟨laps, rfl⟩ := round
  rw [Nat.mul_add_mod]
  unfold turned
  split
  · rw [‹index = size›, Nat.mod_self]
  · exact Nat.mod_eq_of_lt (by omega)

/-- The write index is at the end while the flag is set, and then so is the read
index. -/
def Stuck (size : Nat) (ring : RingBuffer T) : Prop := ring.overflow = true ∧ ring.idxWrite = size

instance (size : Nat) (ring : RingBuffer T) : Decidable (Stuck size ring) := inferInstanceAs (Decidable (_ ∧ _))

theorem ends (free : ¬ Stuck size ring) : (if wrapped size ring then size else 0) + turned size ring.idxWrite =
    (if ring.overflow then size else 0) + ring.idxWrite := by
  unfold wrapped turned
  cases flag : ring.overflow <;> by_cases last : ring.idxWrite = size
  · simp [last]
  · simp [last]
  · exact absurd ⟨flag, last⟩ free
  · simp [last]

/-- The next get returns the oldest item of the queue, if there is one. -/
def Serves (moved : T → T) (state : RingBuffer T × List T) : Prop := (state.1.get moved).map Prod.snd = some state.2.head?

instance [DecidableEq T] (moved : T → T) (state : RingBuffer T × List T) : Decidable (Serves moved state) :=
  inferInstanceAs (Decidable (_ = _))

namespace Holds

theorem inside (holds : Holds size ring queue lap) : Inside size ring := ⟨holds.stores.allocated, holds.reads, holds.writes⟩

theorem empty_iff (holds : Holds size ring queue lap) : ring.overflow = false ∧ ring.idxWrite = ring.idxRead ↔ queue = [] := by
  have behind := holds.behind
  have ahead := holds.ahead
  have reads := holds.reads
  rw [← length_eq_zero_iff]
  cases flag : ring.overflow
  · simp only [flag, Bool.false_eq_true, if_false, true_and] at behind ⊢
    omega
  · simp only [flag, if_true] at behind
    have started := ahead flag
    simp only [Bool.true_eq_false, false_and, false_iff]
    omega

theorem stuck (holds : Holds size ring queue lap) (both : Stuck size ring) : ring.idxRead = size ∧ queue.length = size := by
  have fits := holds.stores.fits
  have behind := holds.behind
  have reads := holds.reads
  rw [both.1, both.2, if_pos rfl] at behind
  omega

private theorem drops_iff (holds : Holds size ring queue lap) (free : ¬ Stuck size ring) :
    wrapped size ring = true ∧ turned size ring.idxWrite = ring.idxRead ↔ queue.length = size := by
  have fits := holds.stores.fits
  have behind := holds.behind
  have ahead := holds.ahead
  have reads := holds.reads
  have writes := holds.writes
  unfold wrapped turned
  cases flag : ring.overflow <;> by_cases last : ring.idxWrite = size
  · simp only [flag, last, Bool.false_eq_true, if_false, if_true, decide_true, Bool.or_true, true_and] at behind ⊢
    omega
  · simp only [flag, last, Bool.false_eq_true, if_false, decide_false, Bool.or_false, false_and, false_iff] at behind ⊢
    omega
  · exact absurd ⟨flag, last⟩ free
  · simp only [flag, last, if_true, if_false, Bool.true_or, true_and] at behind ⊢
    omega

theorem put_free (holds : Holds size ring queue lap) (positive : 0 < size) (free : ¬ Stuck size ring) (item : T) :
    Holds size (afterPut size ring item) (put size queue item) lap := by
  have fits := holds.stores.fits
  have behind := holds.behind
  have reads := holds.reads
  have drops := holds.drops_iff free
  have length := length_put fits positive item
  have slot : (lap + ring.idxRead + queue.length) % size = turned size ring.idxWrite := by
    have round : size ∣ lap + if ring.overflow then size else 0 := by
      apply Nat.dvd_add holds.round
      split
      · exact Nat.dvd_refl _
      · exact Nat.dvd_zero _
    rw [Nat.add_assoc, behind, ← Nat.add_assoc]
    exact slot_turned round holds.writes
  have read : (afterPut size ring item).idxRead = ring.idxRead + (queue.length + 1 - size) := by
    unfold afterPut
    simp only [drops]
    split <;> omega
  have placed := holds.stores.put positive item
  rw [slot, Nat.add_assoc, ← read] at placed
  refine ⟨holds.round, placed, ?_, turned_lt holds.writes positive, ?_, fun _ => Nat.succ_pos _⟩
  · rw [read]
    by_cases full : queue.length = size
    · have same := (drops.mpr full).2
      have below := turned_lt holds.writes positive
      omega
    · omega
  · change (afterPut size ring item).idxRead + (put size queue item).length =
      (if wrapped size ring then size else 0) + (turned size ring.idxWrite + 1)
    rw [read, length, ← Nat.add_assoc, ends free, ← behind]
    split <;> omega

private theorem put_stuck (holds : Holds 1 ring queue lap) (stuck : Stuck 1 ring) (item : T) :
    Holds 1 (afterPut 1 ring item) (put 1 queue item) (lap + 1) := by
  obtain ⟨read, length⟩ := holds.stuck stuck
  have after : afterPut 1 ring item = { idxRead := 1, idxWrite := 1, overflow := true, buffer := ring.buffer.set 0 item } := by
    simp [afterPut, wrapped, turned, stuck.2, read]
  have placed := holds.stores.put Nat.one_pos item
  rw [Nat.mod_one, read, length] at placed
  have kept := length_put holds.stores.fits Nat.one_pos item
  rw [if_pos length] at kept
  rw [after]
  refine ⟨Nat.one_dvd _, placed, Nat.le_refl _, Nat.le_refl _, ?_, fun _ => Nat.one_pos⟩
  exact congrArg (1 + ·) kept

private theorem put_loses (moved : T → T) (holds : Holds size ring queue lap) (stuck : Stuck size ring) (several : 1 < size) {item : T}
    (fresh : item ∉ queue) : ¬ Serves moved (afterPut size ring item, put size queue item) := by
  obtain ⟨read, length⟩ := holds.stuck stuck
  have positive : 0 < size := Nat.zero_lt_of_lt several
  have after : afterPut size ring item =
      { idxRead := size, idxWrite := 1, overflow := true, buffer := ring.buffer.set 0 item } := by
    simp [afterPut, wrapped, stuck.2, read, positive.ne]
  have inside : Inside size (afterPut size ring item) := by
    rw [after]
    exact ⟨length_set.trans holds.stores.allocated, Nat.le_refl _, positive⟩
  have present : (afterPut size ring item).buffer[turned size (afterPut size ring item).idxRead]? = some item := by
    rw [after, turned_self]
    apply getElem?_set_self
    rw [holds.stores.allocated]
    exact positive
  have returned := get_eq moved inside positive (fun unset => by rw [after] at unset; cases unset) present
  intro serves
  have same := (congrArg (Option.map Prod.snd) returned).symm.trans serves
  rw [head?_put length several] at same
  exact fresh (mem_of_getElem? (Option.some.inj same).symm)

theorem get (moved : T → T) (holds : Holds size ring queue lap) (positive : 0 < size) :
    ∃ next lap', ring.get moved = some (next, queue.head?) ∧ Holds size next queue.tail lap' := by
  cases queue with
  | nil =>
    obtain ⟨unset, same⟩ := holds.empty_iff.mpr rfl
    exact ⟨ring, lap, get_empty moved unset same, holds⟩
  | cons item rest =>
    obtain ⟨present, kept⟩ := holds.stores.get (moved item)
    rw [slot_turned holds.round holds.reads] at present kept
    have held : ring.overflow = false → ring.idxWrite ≠ ring.idxRead := fun unset same => nomatch holds.empty_iff.mp ⟨unset, same⟩
    have behind := holds.behind
    have reads := holds.reads
    have writes := holds.writes
    rw [length_cons] at behind
    refine ⟨_, if ring.idxRead = size then lap + size else lap, get_eq moved holds.inside positive held present, ?_⟩
    have next : (if ring.idxRead = size then lap + size else lap) + (turned size ring.idxRead + 1) = lap + ring.idxRead + 1 := by
      unfold turned
      split <;> omega
    rw [← next] at kept
    refine ⟨?_, kept, turned_lt reads positive, writes, ?_, fun set => holds.ahead (Bool.and_eq_true_iff.mp set).1⟩
    · split
      · exact Nat.dvd_add holds.round (Nat.dvd_refl _)
      · exact holds.round
    · change turned size ring.idxRead + 1 + rest.length =
        (if ring.overflow && decide (ring.idxRead ≠ size) then size else 0) + ring.idxWrite
      unfold turned
      by_cases last : ring.idxRead = size
      · simp only [last, if_true, ne_eq, not_true, decide_false, Bool.and_false, Bool.false_eq_true, if_false]
        have set : ring.overflow = true := by
          by_contra unset
          rw [if_neg unset, last] at behind
          omega
        rw [if_pos set, last] at behind
        omega
      · simp only [last, if_false, ne_eq, not_false_eq_true, decide_true, Bool.and_true]
        omega

theorem serves (moved : T → T) (holds : Holds size ring queue lap) (positive : 0 < size) : Serves moved (ring, queue) := by
  obtain ⟨next, lap', returned, -⟩ := holds.get moved positive
  exact congrArg (Option.map Prod.snd) returned

end Holds

/-- The ring beside the queue it stands for. -/
def step (size : Nat) (moved : T → T) (state : RingBuffer T × List T) : Call T → Option (RingBuffer T × List T)
  | .put item => (state.1.put item).map (·, put size state.2 item)
  | .get => (state.1.get moved).map fun result => (result.1, state.2.tail)

private theorem step_inside (moved : T → T) (positive : 0 < size) {state : RingBuffer T × List T} (inside : Inside size state.1)
    (call : Call T) : ∃ next, step size moved state call = some next ∧ Inside size next.1 := by
  cases call with
  | put item =>
    refine ⟨_, congrArg (Option.map (·, put size state.2 item)) (put_eq inside positive item), ?_⟩
    have below := turned_lt inside.writes positive
    refine ⟨length_set.trans inside.allocated, ?_, below⟩
    simp only [afterPut]
    split
    · rename_i drops
      exact drops.2 ▸ below
    · exact inside.reads
  | get =>
    by_cases unread : state.1.overflow = false ∧ state.1.idxWrite = state.1.idxRead
    · have returned := get_empty moved unread.1 unread.2
      exact ⟨_, congrArg (Option.map fun result : RingBuffer T × Option T => (result.1, state.2.tail)) returned, inside⟩
    · have below := turned_lt inside.reads positive
      have within : turned size state.1.idxRead < state.1.buffer.length := Nat.lt_of_lt_of_eq below inside.allocated.symm
      have returned := get_eq moved inside positive (not_and.mp unread) (getElem?_eq_getElem within)
      refine ⟨_, congrArg (Option.map fun result : RingBuffer T × Option T => (result.1, state.2.tail)) returned, ?_⟩
      exact ⟨length_set.trans inside.allocated, below, inside.writes⟩

/-- A put finds a ring that is not stuck, or has one slot only. -/
def Free (size : Nat) (state : RingBuffer T × List T) : Call T → Prop
  | .put _ => size = 1 ∨ ¬ Stuck size state.1
  | .get => True

instance (size : Nat) (state : RingBuffer T × List T) : (call : Call T) → Decidable (Free size state call)
  | .put _ => inferInstanceAs (Decidable (_ ∨ _))
  | .get => .isTrue trivial

/-- No item is put while an equal one waits. -/
def Fresh (state : RingBuffer T × List T) : Call T → Prop
  | .put item => item ∉ state.2
  | .get => True

private theorem step_free (moved : T → T) (positive : 0 < size) {state : RingBuffer T × List T} {lap : Nat}
    (holds : Holds size state.1 state.2 lap) {call : Call T} (free : Free size state call) :
    ∃ next lap', step size moved state call = some next ∧ Holds size next.1 next.2 lap' := by
  cases call with
  | put item =>
    have done := congrArg (Option.map (·, put size state.2 item)) (put_eq holds.inside positive item)
    by_cases stuck : Stuck size state.1
    · obtain rfl := free.resolve_right (not_not_intro stuck)
      exact ⟨_, lap + 1, done, holds.put_stuck stuck item⟩
    · exact ⟨_, lap, done, holds.put_free positive stuck item⟩
  | get =>
    obtain ⟨next, lap', returned, kept⟩ := holds.get moved positive
    exact ⟨(next, state.2.tail), lap', congrArg (Option.map fun result : RingBuffer T × Option T => (result.1, state.2.tail)) returned, kept⟩

/-- Every get of the calls returns the oldest unread item, and so would one after
them. -/
def KeepsNewest [Inhabited T] (size : Nat) (moved : T → T) (calls : List (Call T)) : Prop :=
  ∀ before middle, before <+: calls → before.foldlM (step size moved) (RingBuffer.new size, []) = some middle → Serves moved middle

/-- No index leaves the vector. The ring is a queue that drops its oldest item in
every run in which no put finds it stuck, unless it has one slot; and when no
item is put while an equal one waits, in no other. -/
theorem keepsNewest_iff [Inhabited T] (positive : 0 < size) (moved : T → T) (calls : List (Call T)) :
    (∃ final, calls.foldlM (step size moved) (RingBuffer.new size, []) = some final) ∧
      (Runs.AtEveryStepM (step size moved) (Free size) (RingBuffer.new size, []) calls → KeepsNewest size moved calls) ∧
      (Runs.AtEveryStepM (step size moved) Fresh (RingBuffer.new size, []) calls → KeepsNewest size moved calls →
        Runs.AtEveryStepM (step size moved) (Free size) (RingBuffer.new size, []) calls) := by
  let invariant := fun state : RingBuffer T × List T => ∃ lap, Holds size state.1 state.2 lap
  have start : invariant (RingBuffer.new size, []) := ⟨0, new_holds size⟩
  have shows : ∀ state, invariant state → Serves moved state := fun _ ⟨_, holds⟩ => holds.serves moved positive
  refine ⟨?_, fun free => ?_, fun fresh => ?_⟩
  · have progress : ∀ state call, Inside size state.1 → ∃ next, step size moved state call = some next ∧ Inside size next.1 :=
      fun _ call inside => step_inside moved positive inside call
    have start : Inside size ((RingBuffer.new size, []) : RingBuffer T × List T).1 := new_inside size
    obtain ⟨final, ran, -⟩ := Runs.foldlM_succeeds progress calls start
    exact ⟨final, ran⟩
  · refine (Runs.guardedM_shown_iff (Serves moved) shows (fun state call holds now => ?_) free start).mpr free
    obtain ⟨next, lap', done, kept⟩ := step_free moved positive holds.choose_spec now
    exact ⟨next, done, fun _ => ⟨lap', kept⟩, fun _ => now⟩
  · refine (Runs.guardedM_shown_iff (Serves moved) shows (fun state call holds now => ?_) fresh start).mp
    obtain ⟨lap, holds⟩ := holds
    by_cases free : Free size state call
    · obtain ⟨next, lap', done, kept⟩ := step_free moved positive holds free
      exact ⟨next, done, fun _ => ⟨lap', kept⟩, fun _ => free⟩
    · cases call with
      | get => exact absurd trivial free
      | put item =>
        obtain ⟨several, stuck⟩ := not_or.mp free
        have done := congrArg (Option.map (·, put size state.2 item)) (put_eq holds.inside positive item)
        refine ⟨_, done, fun guarding => absurd guarding free, fun serves => ?_⟩
        exact absurd serves (holds.put_loses moved (not_not.mp stuck) (by omega) now)

/-- Two slots, and a run that no put finds stuck. -/
theorem keepsNewest_iff_two : 0 < 2 ∧ KeepsNewest 2 id [.put 1, .put 2, .put 3, .get, .put 4, .get, .get] :=
  ⟨by decide, (keepsNewest_iff (by decide) id _).2.1 (by decide)⟩

/-- Two slots and five puts: the next get returns the fifth item instead of the
fourth. -/
theorem fourth_item_lost : ¬ KeepsNewest 2 id [.put 1, .put 2, .put 3, .put 4, .put 5] := by
  intro keeps
  have wrong : ([.put 1, .put 2, .put 3, .put 4, .put 5].foldlM (step 2 id) (RingBuffer.new 2, [])).map
      (fun state => decide (Serves id state)) = some false := by decide
  obtain ⟨final, ran, unserved⟩ := Option.map_eq_some_iff.mp wrong
  exact of_decide_eq_false unserved (keeps _ final (prefix_refl _) ran)

end FinanceTech.Proofs.LoggerRing
