import FinanceTech.Library.Threads
import FinanceTech.LogPipeline
import FinanceTech.Proofs.LoggerRing

/-! What the logger hands to its handlers. Every entry on its way is labelled with
the thread that logged it; no step of the two loops changes what is on its way of a
thread, and a put loses entries exactly when it finds its ring full. As long as no put
and no get are in one ring at the same time, a put can be taken where it begins and a
get where it returns. -/

namespace FinanceTech.Proofs.LogDelivery
open List Library Library.Threads LowLatencyLogger LoggerRing Strings

def unread (ring : LogBundle) : Nat := (if ring.overflow then ring.buffer.length else 0) + ring.idxWrite - ring.idxRead

private theorem unread_eq {size lap : Nat} {ring : LogBundle} {queue : List LongEntry} (holds : Holds size ring queue lap) :
    unread ring = queue.length := by
  have behind := holds.behind
  rw [unread, holds.stores.allocated, ← behind, Nat.add_sub_cancel_left]

private theorem put_keeps {size lap : Nat} {ring : LogBundle} {queue : List LongEntry} (holds : Holds size ring queue lap)
    (positive : 0 < size) (item : LongEntry) : ∃ next left, ring.put item = some next ∧ (∃ lap', Holds size next left lap') ∧
      left <:+ queue ++ [item] ∧ (queue.length < size → left = queue ++ [item]) := by
  refine ⟨_, if Stuck size ring then [item] else BoundedQueue.put size queue item, put_eq holds.inside positive item, ?_, ?_, ?_⟩
  · split
    next stuck =>
      obtain ⟨read, length⟩ := holds.stuck stuck
      have after : afterPut size ring item = ⟨size, 1, true, ring.buffer.set 0 item⟩ := by
        simp [afterPut, wrapped, stuck.2, read, positive.ne]
      have allocated := holds.stores.allocated
      rw [after]
      refine ⟨lap, holds.round, ⟨length_set.trans allocated, positive, ?_⟩, Nat.le_refl _, positive, rfl, fun _ => Nat.one_pos⟩
      intro index held present
      obtain rfl : index = 0 := by
        have inside := (List.getElem?_eq_some_iff.mp present).1
        rw [length_singleton] at inside
        omega
      rw [Nat.add_zero, slot_turned holds.round (Nat.le_refl _), turned_self, getElem?_set_self (allocated ▸ positive)]
      exact present
    next free => exact ⟨lap, holds.put_free positive free item⟩
  · split
    · exact suffix_append queue [item]
    · exact drop_suffix _ _
  · intro room
    rw [if_neg fun stuck => Nat.lt_irrefl _ ((holds.stuck stuck).2 ▸ room), BoundedQueue.put,
      Nat.sub_eq_zero_of_le room, drop_zero]

section Calls

universe u

variable {T : Type u}

def writeRest (ring : RingBuffer T) (value : T) : Option (RingBuffer T) := do
  let buffer ← Slots.store ring.buffer ring.idxWrite value
  some { ring with buffer, idxWrite := ring.idxWrite + 1 }

def dropRest (ring : RingBuffer T) (value : T) : Option (RingBuffer T) :=
  writeRest (if ring.overflow ∧ ring.idxWrite = ring.idxRead then { ring with idxRead := ring.idxRead + 1 } else ring) value

def putRest (ring : RingBuffer T) : RingBuffer.Put T → Option (RingBuffer T)
  | .resetWrite value => dropRest { ring with idxWrite := 0, overflow := true } value
  | .setOverflow value => dropRest { ring with overflow := true } value
  | .loadOverflow value => dropRest ring value
  | .loadWrite value => writeRest (if ring.idxWrite = ring.idxRead then { ring with idxRead := ring.idxRead + 1 } else ring) value
  | .loadRead value idxWrite => writeRest (if idxWrite = ring.idxRead then { ring with idxRead := ring.idxRead + 1 } else ring) value
  | .advanceRead value => writeRest { ring with idxRead := ring.idxRead + 1 } value
  | .advanceWrite value => writeRest ring value
  | .store value index => do
    let buffer ← Slots.store ring.buffer index value
    some { ring with buffer }

private theorem putRest_start (ring : RingBuffer T) (value : T) : putRest ring (.start ring value) = ring.put value := by
  have whole : ring.put value =
      dropRest (if ring.idxWrite = ring.buffer.length then { ring with idxWrite := 0, overflow := true } else ring) value := rfl
  rw [RingBuffer.Put.start, whole]
  by_cases last : ring.idxWrite = ring.buffer.length
  · rw [if_pos last, if_pos last, putRest]
  · rw [if_neg last, if_neg last, putRest]

/-- One access is the first part of what is left. -/
theorem putRest_step (ring : RingBuffer T) (put : RingBuffer.Put T) :
    putRest ring put = (ring.putStep put).bind fun next => next.2.elim (some next.1) (putRest next.1) := by
  cases put with
  | loadOverflow value =>
    cases set : ring.overflow with
    | true => simp [putRest, RingBuffer.putStep, dropRest, set]
    | false => simp [putRest, RingBuffer.putStep, dropRest, set]
  | loadRead value idxWrite =>
    by_cases same : idxWrite = ring.idxRead
    · simp [putRest, RingBuffer.putStep, same]
    · simp [putRest, RingBuffer.putStep, same]
  | store value index =>
    cases written : Slots.store ring.buffer index value with
    | none => simp [putRest, RingBuffer.putStep, written]
    | some buffer => simp [putRest, RingBuffer.putStep, written]
  | resetWrite | setOverflow | loadWrite | advanceRead | advanceWrite => rfl

def moveRest (moved : T → T) (ring : RingBuffer T) : Option (RingBuffer T × Option T) := do
  let value ← ring.buffer[ring.idxRead]?
  let buffer ← Slots.store ring.buffer ring.idxRead (moved value)
  some ({ ring with buffer, idxRead := ring.idxRead + 1 }, some value)

def endRest (moved : T → T) (ring : RingBuffer T) : Option (RingBuffer T × Option T) :=
  moveRest moved (if ring.idxRead = ring.buffer.length then { ring with idxRead := 0, overflow := false } else ring)

def getRest (moved : T → T) (ring : RingBuffer T) : RingBuffer.Get → Option (RingBuffer T × Option T)
  | .loadWrite => if ring.idxWrite = ring.idxRead then some (ring, none) else endRest moved ring
  | .loadRead idxWrite => if idxWrite = ring.idxRead then some (ring, none) else endRest moved ring
  | .loadEnd => endRest moved ring
  | .resetRead => moveRest moved { ring with idxRead := 0, overflow := false }
  | .clearOverflow => moveRest moved { ring with overflow := false }
  | .advanceRead => moveRest moved ring
  | .move index => do
    let value ← ring.buffer[index]?
    let buffer ← Slots.store ring.buffer index (moved value)
    some ({ ring with buffer }, some value)

private theorem getRest_start (moved : T → T) (ring : RingBuffer T) : getRest moved ring (.start ring) = ring.get moved := by
  rw [RingBuffer.Get.start, RingBuffer.get]
  cases set : ring.overflow with
  | true => simp [getRest, endRest, moveRest]
  | false =>
    by_cases same : ring.idxWrite = ring.idxRead
    · simp [getRest, same]
    · simp [getRest, endRest, moveRest, same]

private theorem getRest_step (moved : T → T) (ring : RingBuffer T) (get : RingBuffer.Get) :
    getRest moved ring get = (ring.getStep moved get).bind fun next =>
      next.2.elim (getRest moved next.1) fun value => some (next.1, value) := by
  cases get with
  | loadRead idxWrite =>
    by_cases same : idxWrite = ring.idxRead
    · simp [getRest, RingBuffer.getStep, same]
    · simp [getRest, RingBuffer.getStep, same]
  | loadEnd =>
    by_cases last : ring.idxRead = ring.buffer.length
    · simp [getRest, RingBuffer.getStep, endRest, last]
    · simp [getRest, RingBuffer.getStep, endRest, last]
  | move index =>
    cases read : ring.buffer[index]? with
    | none => simp [getRest, RingBuffer.getStep, read]
    | some value =>
      cases written : Slots.store ring.buffer index (moved value) with
      | none => simp [getRest, RingBuffer.getStep, read, written]
      | some buffer => simp [getRest, RingBuffer.getStep, read, written]
  | loadWrite | resetRead | clearOverflow | advanceRead => rfl

end Calls

private theorem sorted_unique {entries sorted : List LongEntry} (ascending : entries.Pairwise LongEntry.before) (perm : sorted ~ entries)
    (ordered : sorted.Pairwise fun first second => ¬ second.before first) : sorted = entries := by
  have compares : ∀ first ∈ entries, ∀ second ∈ entries, first = second ∨ first.before second ∨ second.before first := by
    intro first inside second member
    exact Pairwise.forall_of_forall_of_flip (R := fun first second => first = second ∨ first.before second ∨ second.before first)
      (fun _ _ => .inl rfl) (ascending.imp fun earlier => .inr (.inl earlier)) (ascending.imp fun earlier => .inr (.inr earlier))
      inside member
  refine Perm.eq_of_pairwise ?_ ordered (ascending.imp fun {first second} earlier later => ?_) perm
  · intro first second inside member notLater notEarlier
    rcases compares first (perm.mem_iff.mp inside) second member with same | earlier | later
    · exact same
    · exact absurd earlier notEarlier
    · exact absurd later notLater
  · exact absurd later (Int.lt_asymm earlier)

/-- The entries of every stage, each with the thread that logged it, and those that
wait in the rings. -/
structure Stages where
  handled : List (Nat × LongEntry) := []
  handling : List (Nat × LongEntry) := []
  toHandle : List (List (Nat × LongEntry)) := []
  collected : List (Nat × LongEntry) := []
  queue : Nat → List LongEntry := fun _ => []

namespace Stages

def labelled (stages : Stages) : List (Nat × LongEntry) :=
  stages.handled ++ (stages.handling ++ (stages.toHandle.flatten ++ stages.collected))

def carried (stages : Stages) (thread : Nat) : List LongEntry := ofThread stages.labelled thread ++ stages.queue thread

end Stages

def reading (logger : Logger) (thread : Nat) : Option RingBuffer.Get :=
  match logger.consumer with
  | .getting bundle _ call => if bundle = thread then some call else none
  | _ => none

/-- What the ring of a thread is: as a put in progress will leave it, or as a get in
progress has found it. -/
def Settles (moved : LongEntry → LongEntry) (bundle ring : LogBundle) : Option (RingBuffer.Put LongEntry) → Option RingBuffer.Get → Prop
  | none, none => bundle = ring
  | some call, none => putRest bundle call = some ring
  | none, some call => getRest moved bundle call = ring.get moved
  | some _, some _ => False

def Carries (moved : LongEntry → LongEntry) (log : ThreadLog) (getting : Option RingBuffer.Get) (queue : List LongEntry) : Prop :=
  ∃ ring lap, Settles moved log.bundle ring log.putting getting ∧ Holds logBundleSize ring queue lap

/-- The rings hold the entries that wait in them. -/
structure Rings (moved : LongEntry → LongEntry) (logger : Logger) (queue : Nat → List LongEntry) : Prop where
  carries : ∀ thread log, logger.threadLogs[thread]? = some log → Carries moved log (reading logger thread) (queue thread)
  outside : ∀ thread, logger.threadLogs.length ≤ thread → queue thread = []
  reads : ∀ thread, (reading logger thread).isSome → thread < logger.threadLogs.length

structure Labels (moved : LongEntry → LongEntry) (logger : Logger) (stages : Stages) : Prop where
  rings : Rings moved logger stages.queue
  handling : stages.handling.map (·.2) = logger.handling
  toHandle : stages.toHandle.map (map (·.2)) = logger.logsToHandle
  collected : stages.collected.map (·.2) = logger.collected

def begins (logger : Logger) : Option Nat :=
  match logger.consumer with
  | .collecting bundle count => if count < consumeBlockSize then some bundle else none
  | _ => none

/-- No put begins in a ring while a get is in it, and no get while a put is. -/
def Apart (logger : Logger) : LoggerStep → Prop
  | .log thread _ => reading logger thread = none
  | .consumeLogs => ∀ thread ∈ begins logger, ∀ log ∈ logger.threadLogs[thread]?, log.putting = none
  | _ => True

instance (logger : Logger) : (step : LoggerStep) → Decidable (Apart logger step)
  | .log _ _ => inferInstanceAs (Decidable (_ = none))
  | .consumeLogs => inferInstanceAs (Decidable (∀ thread ∈ begins logger, ∀ log ∈ logger.threadLogs[thread]?, log.putting = none))
  | .getThreadLocalLogs | .put _ | .take _ | .handle _ => .isTrue trivial

def loggedBy (steps : List LoggerStep) (thread : Nat) : List LongEntry :=
  steps.filterMap fun
    | .log other entry => if other = thread then some entry else none
    | _ => none

/-- A put finds room in its ring. -/
def Roomy (logger : Logger) : LoggerStep → Prop
  | .log thread _ => ∀ log, logger.threadLogs[thread]? = some log → unread log.bundle < logBundleSize
  | _ => True

private theorem loggedBy_concat (steps : List LoggerStep) (step : LoggerStep) (thread : Nat) :
    loggedBy (steps ++ [step]) thread = loggedBy steps thread ++ loggedBy [step] thread := filterMap_append

/-- What a step that logs nothing does to the stages: it moves entries on. -/
structure Moved (stages next : Stages) : Prop where
  perm : ∀ thread, next.carried thread ~ stages.carried thread
  ordered : ∀ thread, (stages.carried thread).Pairwise LongEntry.before → next.carried thread = stages.carried thread

theorem Moved.same {stages next : Stages} (same : ∀ thread, next.carried thread = stages.carried thread) : Moved stages next :=
  ⟨fun thread => same thread ▸ Perm.refl _, fun thread _ => same thread⟩

section Steps

variable {logger next : Logger} {stages : Stages} {moved : LongEntry → LongEntry}

private theorem logBundleSize_pos : 0 < logBundleSize := Nat.zero_lt_succ _

theorem Rings.keep {queue : Nat → List LongEntry} (rings : Rings moved logger queue) (kept : next.threadLogs = logger.threadLogs)
    (same : ∀ thread, reading next thread = reading logger thread) : Rings moved next queue := by
  refine ⟨?_, ?_, ?_⟩
  · intro thread log found
    rw [same]
    exact rings.carries thread log (kept ▸ found)
  · intro thread beyond
    exact rings.outside thread (kept ▸ beyond)
  · intro thread gets
    rw [kept]
    exact rings.reads thread (same thread ▸ gets)

theorem Rings.set {queue : Nat → List LongEntry} (rings : Rings moved logger queue) {thread : Nat} {log : ThreadLog}
    {entries : List LongEntry} (inside : thread < logger.threadLogs.length) (replaced : next.threadLogs = logger.threadLogs.set thread log)
    (same : ∀ other, other ≠ thread → reading next other = reading logger other) (carries : Carries moved log (reading next thread) entries) :
    Rings moved next (Function.update queue thread entries) := by
  refine ⟨?_, ?_, ?_⟩
  · intro other held found
    rw [replaced] at found
    by_cases which : other = thread
    · rw [which, getElem?_set_self inside] at found
      cases found
      rw [which, Function.update_self]
      exact carries
    · rw [getElem?_set_ne (Ne.symm which)] at found
      rw [Function.update_of_ne which, same other which]
      exact rings.carries other held found
  · intro other beyond
    rw [replaced, length_set] at beyond
    rw [Function.update_of_ne (Nat.ne_of_gt (Nat.lt_of_lt_of_le inside beyond))]
    exact rings.outside other beyond
  · intro other gets
    rw [replaced, length_set]
    by_cases which : other = thread
    · exact which ▸ inside
    · rw [same other which] at gets
      exact rings.reads other gets

theorem reading_getting {bundle count : Nat} {get : RingBuffer.Get} (gets : logger.consumer = .getting bundle count get) (thread : Nat) :
    reading logger thread = if bundle = thread then some get else none := by rw [reading, gets]

/-- A ring in which nothing is in progress is what it is settled to. -/
theorem Carries.idle {log : ThreadLog} {queue : List LongEntry} (carries : Carries moved log none queue) (still : log.putting = none) :
    ∃ lap, Holds logBundleSize log.bundle queue lap := by
  obtain ⟨ring, lap, settles, holds⟩ := carries
  rw [still] at settles
  have same : log.bundle = ring := settles
  exact ⟨lap, same ▸ holds⟩

private theorem getStep_carries {log : ThreadLog} {get : RingBuffer.Get} {queue : List LongEntry} (carries : Carries moved log (some get) queue) :
    log.putting = none ∧ ∃ bundle result, log.bundle.getStep moved get = some (bundle, result) ∧ match result with
      | .inl later => Carries moved { log with bundle } (some later) queue
      | .inr value => value = queue.head? ∧ Carries moved { log with bundle } none queue.tail := by
  obtain ⟨ring, lap, settles, holds⟩ := carries
  obtain ⟨left, lap', got, kept⟩ := holds.get moved logBundleSize_pos
  obtain ⟨found, putting⟩ := log
  cases putting with
  | some put => exact settles.elim
  | none =>
    have same : getRest moved found get = ring.get moved := settles
    rw [getRest_step, got, Option.bind_eq_some_iff] at same
    obtain ⟨⟨bundle, result⟩, stepped, rest⟩ := same
    refine ⟨rfl, bundle, result, stepped, ?_⟩
    cases result with
    | inl later =>
      have settles : Settles moved bundle ring none (some later) := rest.trans got.symm
      exact ⟨ring, lap, settles, holds⟩
    | inr value =>
      cases rest
      exact ⟨rfl, bundle, lap', rfl, kept⟩

private theorem Rings.register {queue : Nat → List LongEntry} (rings : Rings moved logger queue) :
    Rings moved { logger with threadLogs := logger.threadLogs ++ [{ bundle := RingBuffer.new logBundleSize }] } queue := by
  refine ⟨?_, ?_, ?_⟩
  · intro thread log found
    rcases Nat.lt_or_ge thread logger.threadLogs.length with inside | beyond
    · rw [getElem?_append_left inside] at found
      exact rings.carries thread log found
    · rw [getElem?_append_right beyond] at found
      obtain rfl := mem_singleton.mp (mem_of_getElem? found)
      have unreading : reading logger thread = none := by
        by_contra gets
        exact Nat.not_lt_of_le beyond (rings.reads thread (Option.isSome_iff_ne_none.mpr gets))
      rw [rings.outside thread beyond]
      have fresh : Carries moved { bundle := RingBuffer.new logBundleSize } none [] := ⟨_, 0, rfl, new_holds logBundleSize⟩
      exact unreading ▸ fresh
  · intro thread beyond
    rw [length_append] at beyond
    exact rings.outside thread (Nat.le_trans (Nat.le_add_right _ _) beyond)
  · intro thread gets
    rw [length_append]
    exact Nat.lt_add_right _ (rings.reads thread gets)

/-- The next step of the collecting thread has a result, which leaves all that is on its
way where it was. -/
def Collects (moved : LongEntry → LongEntry) (logger : Logger) (stages : Stages) : Prop :=
  ∃ next stages', logger.consumeLogs moved = some next ∧ Labels moved next stages' ∧ Moved stages stages' ∧
    next.handlers = logger.handlers ∧ stages'.handled = stages.handled

private theorem Labels.stays (labels : Labels moved logger stages) {consumer : ConsumerAt}
    (same : ∀ thread, reading { logger with consumer } thread = reading logger thread) : Labels moved { logger with consumer } stages :=
  ⟨labels.rings.keep rfl same, labels.handling, labels.toHandle, labels.collected⟩

private theorem collecting_collects (labels : Labels moved logger stages) (apart : Apart logger .consumeLogs) {bundle count : Nat}
    (at' : logger.consumer = .collecting bundle count) : Collects moved logger stages := by
  have still : Moved stages stages := .same fun _ => rfl
  have idle : ∀ thread, reading logger thread = none := fun thread => by rw [reading, at']
  rw [Collects, Logger.consumeLogs, at']
  dsimp only
  cases found : logger.threadLogs[bundle]? with
  | none => exact ⟨_, stages, rfl, labels.stays fun thread => (idle thread).symm, still, rfl, rfl⟩
  | some log =>
    dsimp only
    split
    next more =>
      have begun : bundle ∈ begins logger := by
        rw [begins, at']
        exact if_pos more
      have free : log.putting = none := apart bundle begun log found
      obtain ⟨inside, same⟩ := List.getElem?_eq_some_iff.mp found
      obtain ⟨lap, holds⟩ := (idle bundle ▸ labels.rings.carries bundle log found).idle free
      have gets : Rings moved { logger with consumer := .getting bundle count (.start log.bundle) }
          (Function.update stages.queue bundle (stages.queue bundle)) := by
        refine labels.rings.set inside (same ▸ set_getElem_self inside).symm (fun other different => ?_) ⟨log.bundle, lap, ?_, holds⟩
        · rw [idle]
          exact if_neg different.symm
        · have settles : Settles moved log.bundle log.bundle none (some (.start log.bundle)) := getRest_start moved log.bundle
          rw [free, reading_getting rfl, if_pos rfl]
          exact settles
      rw [Function.update_eq_self] at gets
      exact ⟨_, stages, rfl, ⟨gets, labels.handling, labels.toHandle, labels.collected⟩, still, rfl, rfl⟩
    next => exact ⟨_, stages, rfl, labels.stays fun thread => (idle thread).symm, still, rfl, rfl⟩

private theorem getting_collects (labels : Labels moved logger stages) {bundle count : Nat} {get : RingBuffer.Get}
    (at' : logger.consumer = .getting bundle count get) : Collects moved logger stages := by
  have read := reading_getting at'
  have inside : bundle < logger.threadLogs.length := labels.rings.reads bundle (by rw [read, if_pos rfl]; rfl)
  have found := getElem?_eq_getElem inside
  have carries := labels.rings.carries bundle _ found
  rw [read, if_pos rfl] at carries
  obtain ⟨-, left, result, stepped, after⟩ := getStep_carries carries
  rw [Collects, Logger.consumeLogs, at']
  simp only [found, stepped, Option.bind_eq_bind, Option.bind_some]
  cases result with
  | inl later =>
    refine ⟨_, { stages with queue := Function.update stages.queue bundle (stages.queue bundle) }, rfl,
      ⟨labels.rings.set inside rfl (fun other different => ?_) ?_, labels.handling, labels.toHandle, labels.collected⟩,
      .same fun thread => ?_, rfl, rfl⟩
    · rw [read, if_neg different.symm]
      exact if_neg different.symm
    · rw [reading_getting rfl, if_pos rfl]
      exact after
    · rw [Function.update_eq_self]
  | inr value =>
    obtain ⟨rfl, after⟩ := after
    have others : ∀ other, other ≠ bundle → none = reading logger other := by
      intro other different
      rw [read, if_neg different.symm]
    cases queued : stages.queue bundle with
    | nil =>
      rw [queued] at after
      refine ⟨_, { stages with queue := Function.update stages.queue bundle [] }, rfl,
        ⟨labels.rings.set inside rfl others after, labels.handling, labels.toHandle, labels.collected⟩,
        .same fun thread => ?_, rfl, rfl⟩
      rw [← queued, Function.update_eq_self]
    | cons entry rest =>
      rw [queued] at after
      refine ⟨_, { stages with
        collected := stages.collected ++ [(bundle, entry)], queue := Function.update stages.queue bundle rest }, rfl,
        ⟨labels.rings.set inside rfl others after, labels.handling, labels.toHandle, ?_⟩, .same fun thread => ?_, rfl, rfl⟩
      · rw [map_append, labels.collected]
        rfl
      · simp only [Stages.carried, Stages.labelled, ← append_assoc]
        rw [ofThread_concat _ [(bundle, entry)], ofThread_singleton]
        by_cases same : bundle = thread
        · subst same
          rw [if_pos rfl, Function.update_self, queued, append_assoc, singleton_append]
        · rw [if_neg same, Function.update_of_ne (Ne.symm same), append_nil]

/-- Collecting never leaves a bundle, and what it takes is still on its way. -/
theorem consumeLogs_moves (labels : Labels moved logger stages) (apart : Apart logger .consumeLogs) :
    Collects moved logger stages := by
  cases at' : logger.consumer with
  | sleeping =>
    rw [Collects, Logger.consumeLogs, at']
    refine ⟨_, stages, rfl, labels.stays fun thread => ?_, .same fun _ => rfl, rfl, rfl⟩
    rw [reading, reading, at']
  | collecting bundle count => exact collecting_collects labels apart at'
  | getting bundle count get => exact getting_collects labels at'
  | handing =>
    have idle : ∀ thread, reading logger thread = none := fun thread => by rw [reading, at']
    rw [Collects, Logger.consumeLogs, at']
    dsimp only
    split
    next => exact ⟨_, stages, rfl, labels.stays fun thread => (idle thread).symm, .same fun _ => rfl, rfl, rfl⟩
    next =>
      refine ⟨_, { stages with toHandle := stages.toHandle ++ [stages.collected], collected := [] }, rfl,
        ⟨labels.rings.keep rfl fun thread => (idle thread).symm, labels.handling, ?_, rfl⟩, .same fun thread => ?_, rfl, rfl⟩
      · rw [map_append, labels.toHandle, map_singleton, labels.collected]
      · simp only [Stages.carried, Stages.labelled, flatten_append, flatten_singleton, append_nil]

/-- A sorted collection has the entries of each thread in their order, when their
times tell it. -/
theorem take_moves {collection : List (Nat × LongEntry)} {rest : List (List (Nat × LongEntry))} {sorted : List LongEntry}
    (labels : Labels moved logger stages) (idle : logger.handling = []) (first : stages.toHandle = collection :: rest)
    (perm : sorted ~ collection.map (·.2)) (ordered : sorted.Pairwise fun first second => ¬ second.before first) :
    ∃ stages', Labels moved { logger with handling := sorted, logsToHandle := rest.map (map (·.2)) } stages' ∧ Moved stages stages' ∧
      stages'.handled = stages.handled := by
  obtain ⟨labelled, same, named⟩ := exists_labels perm
  have none : stages.handling = [] := map_eq_nil_iff.mp (labels.handling.trans idle)
  refine ⟨{ stages with handling := labelled, toHandle := rest }, ⟨labels.rings.keep rfl fun _ => rfl, named, rfl, labels.collected⟩,
    ⟨fun thread => ?_, fun thread ascending => ?_⟩, rfl⟩
  · simp only [Stages.carried, Stages.labelled, none, first, nil_append, flatten_cons, append_assoc]
    apply Perm.append_right
    exact ofThread_perm ((same.append_right _).append_left _) thread
  · have before : stages.carried thread = ofThread stages.handled thread ++ (ofThread collection thread ++
        (ofThread (rest.flatten ++ stages.collected) thread ++ stages.queue thread)) := by
      simp only [Stages.carried, Stages.labelled, none, first, nil_append, flatten_cons, ofThread_concat, append_assoc]
    rw [before] at ascending ⊢
    have mine := (pairwise_append.mp (pairwise_append.mp ascending).2.1).1
    have kept : ofThread labelled thread = ofThread collection thread := by
      apply sorted_unique mine (ofThread_perm same thread)
      rw [← named, pairwise_map] at ordered
      exact pairwise_map.mpr (ordered.filter _)
    simp only [Stages.carried, Stages.labelled, ofThread_concat, append_assoc, kept]

/-- A put takes effect where it begins. -/
theorem log_moves (labels : Labels moved logger stages) {thread : Nat} {log : ThreadLog}
    (found : logger.threadLogs[thread]? = some log) (free : log.putting = none) (entry : LongEntry)
    (apart : Apart logger (.log thread entry)) : ∃ stages',
      Labels moved { logger with
        threadLogs := logger.threadLogs.set thread { log with putting := some (.start log.bundle entry) } } stages' ∧
      stages'.handled = stages.handled ∧ (∀ other, other ≠ thread → stages'.carried other = stages.carried other) ∧
      stages'.carried thread <+ stages.carried thread ++ [entry] ∧
      ((stages'.carried thread).length = (stages.carried thread).length + 1 ↔ unread log.bundle < logBundleSize) := by
  have unreading : reading logger thread = none := apart
  have inside := (List.getElem?_eq_some_iff.mp found).1
  obtain ⟨lap, holds⟩ := (unreading ▸ labels.rings.carries thread log found).idle free
  obtain ⟨ring, left, put, ⟨lap', kept⟩, recent, room⟩ := put_keeps holds logBundleSize_pos entry
  let stages' : Stages := { stages with queue := Function.update stages.queue thread left }
  have carried : stages'.carried thread = ofThread stages.labelled thread ++ left := by
    simp only [Stages.carried, stages', Function.update_self]
    rfl
  refine ⟨stages', ⟨labels.rings.set inside rfl (fun _ _ => rfl) ⟨ring, lap', ?_, kept⟩, labels.handling, labels.toHandle,
    labels.collected⟩, rfl, ?_, ?_, ?_⟩
  · have settles : Settles moved log.bundle ring (some (.start log.bundle entry)) none := (putRest_start log.bundle entry).trans put
    exact unreading ▸ settles
  · intro other different
    simp only [Stages.carried, stages', Function.update_of_ne different]
    rfl
  · rw [carried, Stages.carried, append_assoc]
    exact recent.sublist.append_left _
  · rw [carried, Stages.carried, length_append, length_append, unread_eq holds]
    constructor
    · intro grown
      have fits := kept.stores.fits
      omega
    · intro free
      rw [room free, length_append, length_singleton, Nat.add_assoc]

theorem put_moves (labels : Labels moved logger stages) {thread : Nat} {log : ThreadLog} {put : RingBuffer.Put LongEntry}
    (found : logger.threadLogs[thread]? = some log) (puts : log.putting = some put) : ∃ bundle putting,
      log.bundle.putStep put = some (bundle, putting) ∧
      Labels moved { logger with threadLogs := logger.threadLogs.set thread { bundle, putting } } stages := by
  have inside := (List.getElem?_eq_some_iff.mp found).1
  obtain ⟨ring, lap, settles, holds⟩ := labels.rings.carries thread log found
  rw [puts] at settles
  cases unreading : reading logger thread with
  | some get =>
    rw [unreading] at settles
    exact settles.elim
  | none =>
    rw [unreading] at settles
    have same : putRest log.bundle put = some ring := settles
    rw [putRest_step, Option.bind_eq_some_iff] at same
    obtain ⟨⟨bundle, putting⟩, stepped, rest⟩ := same
    have after : Settles moved bundle ring putting none := by
      cases putting with
      | none => exact Option.some.inj rest
      | some later => exact rest
    have rings : Rings moved { logger with threadLogs := logger.threadLogs.set thread { bundle, putting } }
        (Function.update stages.queue thread (stages.queue thread)) :=
      labels.rings.set inside rfl (fun _ _ => rfl) ⟨ring, lap, unreading ▸ after, holds⟩
    rw [Function.update_eq_self] at rings
    exact ⟨bundle, putting, stepped, rings, labels.handling, labels.toHandle, labels.collected⟩

end Steps

/-- A handler as its constructor makes it, a file one with what its file holds. -/
inductive Sink where
  | console (level : Level)
  | file (level : Level) (content : Text)

def Sink.construct : Sink → LogHandler
  | .console level => .console { level }
  | .file level content => .file { level, file := content }

def lines (getCurrentTime : Int → Text) (level : Level) (entries : List LongEntry) : Text :=
  (entries.filter fun entry => !skips level entry).flatMap (line getCurrentTime)

/-- What a handler shows of the entries it was given. Whole buffers are missing from
a file that could not always be opened. -/
def Writes (getCurrentTime : Int → Text) (opened : Prop) (handled : List LongEntry) : Sink → LogHandler → Prop
  | .console level, .console handler => handler = { level, out := lines getCurrentTime level handled }
  | .file level content, .file handler => handler.level = level ∧ ∃ written waiting, written ++ waiting <+ handled ∧
      handler.file = content ++ lines getCurrentTime level written ∧ handler.buffer = lines getCurrentTime level waiting ∧
      (opened → written ++ waiting = handled)
  | _, _ => False

section Handlers

variable {getCurrentTime : Int → Text} {opened : Prop} {handled : List LongEntry}

theorem lines_concat (level : Level) (entries : List LongEntry) (entry : LongEntry) :
    lines getCurrentTime level (entries ++ [entry]) =
      lines getCurrentTime level entries ++ if skips level entry then [] else line getCurrentTime entry := by
  cases skipped : skips level entry <;> simp [lines, skipped]

private theorem lines_append (level : Level) (first second : List LongEntry) :
    lines getCurrentTime level (first ++ second) = lines getCurrentTime level first ++ lines getCurrentTime level second := by
  simp only [lines, filter_append, flatMap_append]

private theorem construct_writes (sink : Sink) : Writes getCurrentTime opened [] sink sink.construct := by
  cases sink with
  | console level => rfl
  | file level content => exact ⟨rfl, [], [], Sublist.refl _, (append_nil _).symm, rfl, fun _ => rfl⟩

private theorem handleEntry_writes {sink : Sink} {handler : LogHandler} (writes : Writes getCurrentTime opened handled sink handler)
    (opens : Bool) (entry : LongEntry) : Writes getCurrentTime (opened ∧ opens = true) (handled ++ [entry]) sink
      (handler.handleEntry getCurrentTime opens entry) := by
  match sink, handler with
  | .console level, .console handler =>
    cases writes
    simp only [LogHandler.handleEntry, ConsoleLogHandler.handleEntry, Writes, lines_concat]
    cases skips level entry <;> simp
  | .file level content, .file handler =>
    obtain ⟨rfl, written, waiting, sub, file, buffer, whole⟩ := writes
    have longer : written ++ (waiting ++ [entry]) <+ handled ++ [entry] := by
      rw [← append_assoc]
      exact sub.append_right _
    have all : opened → written ++ (waiting ++ [entry]) = handled ++ [entry] := fun always => by
      rw [← append_assoc, whole always]
    have buffered := @lines_concat getCurrentTime handler.level waiting entry
    rw [← buffer] at buffered
    simp only [LogHandler.handleEntry, FileLogHandler.handleEntry, Writes]
    by_cases skipped : skips handler.level entry
    · rw [if_pos skipped] at buffered ⊢
      exact ⟨rfl, written, waiting ++ [entry], longer, file, by rw [buffered, append_nil], fun always => all always.1⟩
    · rw [if_neg skipped] at buffered ⊢
      split
      next flushes =>
        cases opens with
        | true =>
          refine ⟨rfl, written ++ (waiting ++ [entry]), [], (append_nil _).symm ▸ longer, ?_, rfl, fun always => ?_⟩
          · rw [if_pos rfl, file, lines_append, buffered, append_assoc]
          · rw [append_nil, all always.1]
        | false =>
          refine ⟨rfl, written, [], ?_, file, rfl, fun always => nomatch always.2⟩
          rw [append_nil]
          exact (sublist_append_left _ _).trans longer
      next => exact ⟨rfl, written, waiting ++ [entry], longer, file, buffered.symm, fun always => all always.1⟩

end Handlers

/-- A logger with the handlers that were added to it. -/
def construct (sinks : List Sink) : Logger := { handlers := sinks.map Sink.construct }

/-- Nothing waits anywhere, and nobody is in a ring. -/
structure Drained (logger : Logger) : Prop where
  rings : ∀ log ∈ logger.threadLogs, log.putting = none ∧ unread log.bundle = 0
  reading : ∀ thread, reading logger thread = none
  collected : logger.collected = []
  toHandle : logger.logsToHandle = []
  handling : logger.handling = []

section Runs

variable {getCurrentTime : Int → Text} {moved : LongEntry → LongEntry} {sinks : List Sink} {steps : List LoggerStep}
variable {logger next : Logger} {stages : Stages}

def Shown (getCurrentTime : Int → Text) (sinks : List Sink) (steps : List LoggerStep) (logger : Logger) (handled : List LongEntry) : Prop :=
  ∀ index sink, sinks[index]? = some sink → ∃ handler, logger.handlers[index]? = some handler ∧
    Writes getCurrentTime (∀ opens, .handle opens ∈ steps → opens index = true) handled sink handler

structure Recorded (getCurrentTime : Int → Text) (moved : LongEntry → LongEntry) (sinks : List Sink) (steps : List LoggerStep)
    (logger : Logger) (stages : Stages) : Prop where
  labels : Labels moved logger stages
  shown : Shown getCurrentTime sinks steps logger (stages.handled.map (·.2))
  kept : ∀ thread, stages.carried thread <+~ loggedBy steps thread
  ordered : ∀ thread, (loggedBy steps thread).Pairwise LongEntry.before → stages.carried thread <+ loggedBy steps thread
  lossless : (∀ thread, (stages.carried thread).length = (loggedBy steps thread).length) ↔
    Runs.AtEveryStepM (Logger.step getCurrentTime moved) Roomy (construct sinks) steps

private theorem initial_recorded : Recorded getCurrentTime moved sinks [] (construct sinks) {} := by
  refine ⟨⟨⟨?_, fun _ _ => rfl, ?_⟩, rfl, rfl, rfl⟩, ?_, fun _ => .refl _, fun _ _ => .refl _, fun _ => trivial, fun _ _ => rfl⟩
  · intro thread log found
    cases found
  · intro thread gets
    cases gets
  · intro index sink found
    refine ⟨sink.construct, ?_, construct_writes sink⟩
    rw [construct, getElem?_map, found]
    rfl

theorem Writes.weaken {opened stricter : Prop} {handled : List LongEntry} {sink : Sink} {handler : LogHandler} (implies : stricter → opened)
    (writes : Writes getCurrentTime opened handled sink handler) : Writes getCurrentTime stricter handled sink handler := by
  match sink, handler with
  | .console level, .console handler => exact writes
  | .file level content, .file handler =>
    obtain ⟨same, written, waiting, sub, file, buffer, whole⟩ := writes
    exact ⟨same, written, waiting, sub, file, buffer, fun always => whole (implies always)⟩

theorem Recorded.move (recorded : Recorded getCurrentTime moved sinks steps logger stages)
    (ran : steps.foldlM (Logger.step getCurrentTime moved) (construct sinks) = some logger) (step : LoggerStep)
    (quiet : ∀ thread, loggedBy [step] thread = []) (roomy : Roomy logger step) {stages' : Stages} (labels : Labels moved next stages')
    (moves : Moved stages stages') (shown : Shown getCurrentTime sinks (steps ++ [step]) next (stages'.handled.map (·.2))) :
    Recorded getCurrentTime moved sinks (steps ++ [step]) next stages' := by
  have logged : ∀ thread, loggedBy (steps ++ [step]) thread = loggedBy steps thread := by
    intro thread
    rw [loggedBy_concat, quiet, append_nil]
  refine ⟨labels, shown, fun thread => ?_, fun thread ascending => ?_, ?_⟩
  · rw [logged]
    exact (moves.perm thread).subperm.trans (recorded.kept thread)
  · rw [logged] at ascending ⊢
    have inside := recorded.ordered thread ascending
    rw [moves.ordered thread (ascending.sublist inside)]
    exact inside
  · rw [Runs.atEveryStepM_concat ran, ← recorded.lossless]
    constructor
    · exact fun same => ⟨fun thread => by rw [← (moves.perm thread).length_eq, same, logged], roomy⟩
    · rintro ⟨same, -⟩ thread
      rw [logged, (moves.perm thread).length_eq, same]

theorem Shown.quiet {handled : List LongEntry} (shown : Shown getCurrentTime sinks steps logger handled) (step : LoggerStep)
    (same : next.handlers = logger.handlers) : Shown getCurrentTime sinks (steps ++ [step]) next handled := by
  intro index sink found
  obtain ⟨handler, present, writes⟩ := shown index sink found
  exact ⟨handler, same ▸ present, writes.weaken fun always opens member => always opens (mem_append_left _ member)⟩

private theorem log_records (recorded : Recorded getCurrentTime moved sinks steps logger stages)
    (ran : steps.foldlM (Logger.step getCurrentTime moved) (construct sinks) = some logger) {thread : Nat} {log : ThreadLog}
    (found : logger.threadLogs[thread]? = some log) (free : log.putting = none) (entry : LongEntry)
    (apart : Apart logger (.log thread entry)) : ∃ stages', Recorded getCurrentTime moved sinks (steps ++ [.log thread entry])
      { logger with
        threadLogs := logger.threadLogs.set thread { log with putting := some (.start log.bundle entry) } } stages' := by
  obtain ⟨stages', labels, handled, others, own, grows⟩ := log_moves recorded.labels found free entry apart
  have logged : ∀ other, loggedBy (steps ++ [.log thread entry]) other =
      loggedBy steps other ++ if thread = other then [entry] else [] := by
    intro other
    rw [loggedBy_concat]
    by_cases same : thread = other <;> simp [loggedBy, same]
  have mine : loggedBy (steps ++ [.log thread entry]) thread = loggedBy steps thread ++ [entry] := by
    rw [logged, if_pos rfl]
  have theirs : ∀ other, other ≠ thread → loggedBy (steps ++ [.log thread entry]) other = loggedBy steps other := by
    intro other different
    rw [logged, if_neg different.symm, append_nil]
  refine ⟨stages', labels, handled ▸ recorded.shown.quiet _ rfl, fun other => ?_, fun other ascending => ?_, ?_⟩
  · by_cases same : other = thread
    · rw [same, mine]
      exact own.subperm.trans ((subperm_append_right [entry]).mpr (recorded.kept thread))
    · rw [theirs other same, others other same]
      exact recorded.kept other
  · by_cases same : other = thread
    · rw [same, mine] at ascending ⊢
      exact own.trans ((recorded.ordered thread (pairwise_append.mp ascending).1).append_right [entry])
    · rw [theirs other same] at ascending ⊢
      rw [others other same]
      exact recorded.ordered other ascending
  · have room : Roomy logger (.log thread entry) ↔ unread log.bundle < logBundleSize := by
      constructor
      · exact fun roomy => roomy log found
      · intro room other read
        rw [found] at read
        cases read
        exact room
    have bound := own.length_le
    have before := (recorded.kept thread).length_le
    rw [length_append, length_singleton] at bound
    rw [Runs.atEveryStepM_concat ran, ← recorded.lossless, room, ← grows]
    constructor
    · intro same
      have here := same thread
      rw [mine, length_append, length_singleton] at here
      refine ⟨fun other => ?_, by omega⟩
      by_cases which : other = thread
      · rw [which]
        omega
      · rw [← others other which, same, theirs other which]
    · rintro ⟨same, grown⟩ other
      by_cases which : other = thread
      · rw [which, mine, grown, same, length_append, length_singleton]
      · rw [others other which, same, theirs other which]

private theorem handle_records (recorded : Recorded getCurrentTime moved sinks steps logger stages)
    (ran : steps.foldlM (Logger.step getCurrentTime moved) (construct sinks) = some logger) {entry : LongEntry}
    {rest : List LongEntry} (first : logger.handling = entry :: rest) (opens : Nat → Bool) :
    ∃ stages', Recorded getCurrentTime moved sinks (steps ++ [.handle opens]) { logger with
      handling := rest
      handlers := logger.handlers.mapIdx fun index handler => handler.handleEntry getCurrentTime (opens index) entry } stages' := by
  have labels := recorded.labels
  obtain ⟨⟨thread, item⟩, left, split, rfl, remains⟩ := map_eq_cons_iff.mp (labels.handling.trans first)
  refine ⟨{ stages with handled := stages.handled ++ [(thread, item)], handling := left },
    recorded.move ran (.handle opens) (fun _ => rfl) trivial ⟨labels.rings.keep rfl fun _ => rfl, remains, labels.toHandle, labels.collected⟩
      (.same fun other => ?_) ?_⟩
  · simp only [Stages.carried, Stages.labelled, split, append_assoc, cons_append, nil_append]
  · intro index sink found
    obtain ⟨handler, present, writes⟩ := recorded.shown index sink found
    refine ⟨handler.handleEntry getCurrentTime (opens index) item, ?_, ?_⟩
    · rw [getElem?_mapIdx, present]
      rfl
    · rw [map_append]
      refine (handleEntry_writes writes (opens index) item).weaken fun always => ⟨fun other member => ?_, ?_⟩
      · exact always other (mem_append_left _ member)
      · exact always opens (mem_append_right _ mem_cons_self)

private theorem step_records (recorded : Recorded getCurrentTime moved sinks steps logger stages)
    (ran : steps.foldlM (Logger.step getCurrentTime moved) (construct sinks) = some logger) {step : LoggerStep}
    (apart : Apart logger step) (taken : logger.step getCurrentTime moved step = some next) :
    ∃ stages', Recorded getCurrentTime moved sinks (steps ++ [step]) next stages' := by
  have labels := recorded.labels
  cases step with
  | getThreadLocalLogs =>
    rw [Logger.step] at taken
    split at taken
    next => cases taken
    next =>
      cases taken
      have after := labels.rings.register
      exact ⟨stages, recorded.move ran .getThreadLocalLogs (fun _ => rfl) trivial
        ⟨after, labels.handling, labels.toHandle, labels.collected⟩ (.same fun _ => rfl) (recorded.shown.quiet _ rfl)⟩
  | log thread entry =>
    obtain ⟨log, found, begun⟩ := Option.bind_eq_some_iff.mp taken
    obtain ⟨busy, begun⟩ := Option.ite_none_left_eq_some.mp begun
    cases begun
    obtain ⟨stages', records⟩ := log_records recorded ran found (Option.not_isSome_iff_eq_none.mp busy) entry apart
    exact ⟨stages', records⟩
  | put thread =>
    obtain ⟨log, found, went⟩ := Option.bind_eq_some_iff.mp taken
    obtain ⟨call, puts, went⟩ := Option.bind_eq_some_iff.mp went
    obtain ⟨bundle, putting, stepped, after⟩ := put_moves labels found puts
    rw [stepped] at went
    cases went
    exact ⟨stages, recorded.move ran (.put thread) (fun _ => rfl) trivial after (.same fun _ => rfl) (recorded.shown.quiet _ rfl)⟩
  | consumeLogs =>
    obtain ⟨other, stages', same, after, moves, handlers, handled⟩ := consumeLogs_moves labels apart
    cases same.symm.trans taken
    exact ⟨stages', recorded.move ran .consumeLogs (fun _ => rfl) trivial after moves (handled ▸ recorded.shown.quiet _ handlers)⟩
  | take sorted =>
    rw [Logger.step] at taken
    split at taken
    next => cases taken
    next logsLocal rest first =>
      split at taken
      next fits =>
        cases taken
        obtain ⟨idle, perm, ordered⟩ := fits
        obtain ⟨collection, others, split, rfl, remains⟩ := map_eq_cons_iff.mp (labels.toHandle.trans first)
        obtain ⟨stages', after, moves, handled⟩ := take_moves labels idle split perm ordered
        rw [remains] at after
        exact ⟨stages', recorded.move ran (.take sorted) (fun _ => rfl) trivial after moves (handled ▸ recorded.shown.quiet _ rfl)⟩
      next => cases taken
  | handle opens =>
    rw [Logger.step] at taken
    split at taken
    next => cases taken
    next entry rest first =>
      cases taken
      exact handle_records recorded ran first opens

theorem run_recorded (apart : Runs.AtEveryStepM (Logger.step getCurrentTime moved) Apart (construct sinks) steps)
    (ran : (construct sinks).run getCurrentTime moved steps = some logger) :
    ∃ stages, Recorded getCurrentTime moved sinks steps logger stages := by
  refine @Runs.foldlM_records _ _ _ _ (fun steps logger => Runs.AtEveryStepM (Logger.step getCurrentTime moved) Apart (construct sinks)
    steps → ∃ stages, Recorded getCurrentTime moved sinks steps logger stages) _ _ (fun steps step logger next before kept taken => ?_)
    (fun _ => ⟨{}, initial_recorded⟩) ran apart
  intro apart
  obtain ⟨earlier, now⟩ := (Runs.atEveryStepM_concat before).mp apart
  obtain ⟨stages, recorded⟩ := kept earlier
  exact step_records recorded before now taken

private theorem carried_drained (labels : Labels moved logger stages) (drained : Drained logger) (thread : Nat) :
    stages.carried thread = ofThread stages.handled thread := by
  have empty : stages.queue thread = [] := by
    cases found : logger.threadLogs[thread]? with
    | none => exact labels.rings.outside thread (List.getElem?_eq_none_iff.mp found)
    | some log =>
      obtain ⟨idle, none⟩ := drained.rings log (mem_of_getElem? found)
      obtain ⟨lap, holds⟩ := (drained.reading thread ▸ labels.rings.carries thread log found).idle idle
      rw [← length_eq_zero_iff, ← unread_eq holds]
      exact none
  have handling := map_eq_nil_iff.mp (labels.handling.trans drained.handling)
  have collected := map_eq_nil_iff.mp (labels.collected.trans drained.collected)
  have toHandle := map_eq_nil_iff.mp (labels.toHandle.trans drained.toHandle)
  rw [Stages.carried, Stages.labelled, handling, collected, toHandle, empty]
  simp only [flatten_nil, append_nil]

/-- What the logger has handed to its handlers, every entry with the thread that
logged it. -/
structure Delivered (getCurrentTime : Int → Text) (moved : LongEntry → LongEntry) (sinks : List Sink) (steps : List LoggerStep)
    (logger : Logger) (handled : List (Nat × LongEntry)) : Prop where
  shown : Shown getCurrentTime sinks steps logger (handled.map (·.2))
  genuine : ∀ thread, ofThread handled thread <+~ loggedBy steps thread
  ordered : ∀ thread, (loggedBy steps thread).Pairwise LongEntry.before → ofThread handled thread <+ loggedBy steps thread
  complete : Drained logger → ((∀ thread, ofThread handled thread ~ loggedBy steps thread) ↔
    Runs.AtEveryStepM (Logger.step getCurrentTime moved) Roomy (construct sinks) steps)
  inside : (Apart logger .consumeLogs → (logger.consumeLogs moved).isSome) ∧
    ∀ (thread : Nat) (log : ThreadLog) call, logger.threadLogs[thread]? = some log → log.putting = some call → (log.bundle.putStep call).isSome

/-- In every run in which no put and no get are in one ring at the same time. -/
theorem logs_delivered (apart : Runs.AtEveryStepM (Logger.step getCurrentTime moved) Apart (construct sinks) steps)
    (ran : (construct sinks).run getCurrentTime moved steps = some logger) :
    ∃ handled, Delivered getCurrentTime moved sinks steps logger handled := by
  obtain ⟨stages, recorded⟩ := run_recorded apart ran
  have labels := recorded.labels
  have part : ∀ thread, ofThread stages.handled thread <+ stages.carried thread := by
    intro thread
    rw [Stages.carried, Stages.labelled, ofThread_concat, append_assoc]
    exact sublist_append_left _ _
  refine ⟨stages.handled, recorded.shown, fun thread => ?_, fun thread ascending => ?_, fun drained => ?_, fun apart => ?_, ?_⟩
  · exact (part thread).subperm.trans (recorded.kept thread)
  · exact (part thread).trans (recorded.ordered thread ascending)
  · have whole := carried_drained labels drained
    rw [← recorded.lossless]
    constructor
    · exact fun same thread => (whole thread).symm ▸ (same thread).length_eq
    · exact fun same thread => whole thread ▸ (recorded.kept thread).perm_of_length_le (Nat.le_of_eq (same thread).symm)
  · obtain ⟨after, -, same, -⟩ := consumeLogs_moves labels apart
    rw [same]
    rfl
  · intro thread log call found puts
    obtain ⟨bundle, putting, stepped, -⟩ := put_moves labels found puts
    rw [stepped]
    rfl

end Runs

/-- Two threads put two entries each, the second one in between the accesses of the
first; everything is collected, sorted and handled. -/
def twoThreads : List LoggerStep :=
  let entry (time : Int) (level : Level) : LongEntry := ⟨time, [104, 105], level⟩
  let put (thread : Nat) (time : Int) : List LoggerStep := .log thread (entry time .WARN) :: replicate 3 (.put thread)
  [.getThreadLocalLogs, .getThreadLocalLogs, .log 0 (entry 1 .WARN), .put 0, .log 1 (entry 2 .DEBUG), .put 1, .put 0, .put 1, .put 0, .put 1] ++
    put 1 4 ++ put 0 3 ++ replicate 41 .consumeLogs ++
    [.take [entry 1 .WARN, entry 2 .DEBUG, entry 3 .WARN, entry 4 .WARN]] ++ replicate 4 (.handle fun _ => true)

theorem logs_delivered_two : ∃ logger, (construct [.console .INFO, .file .INFO []]).run (fun _ => []) id twoThreads = some logger ∧
    ∃ handled, Delivered (fun _ => []) id [.console .INFO, .file .INFO []] twoThreads logger handled := by
  have runs : ((construct [.console .INFO, .file .INFO []]).run (fun _ => []) id twoThreads).isSome = true := by decide +kernel
  have apart : Runs.AtEveryStepM (Logger.step (fun _ => []) id) Apart (construct [.console .INFO, .file .INFO []]) twoThreads := by
    decide +kernel
  obtain ⟨logger, ran⟩ := Option.isSome_iff_exists.mp runs
  exact ⟨logger, ran, logs_delivered apart ran⟩

/-- A full ring of two slots: a put moves the read index between two accesses of a get,
which then leaves the vector. -/
example : (do
    let ring : RingBuffer Nat := { idxRead := 1, idxWrite := 1, overflow := true, buffer := [7, 8] }
    let (ring, _) ← ring.getStep id (.start ring)
    let (ring, _) ← ring.putStep (.advanceRead 9)
    let (ring, _) ← ring.getStep id .advanceRead
    ring.getStep id (.move 2)) = none := by decide

end FinanceTech.Proofs.LogDelivery
