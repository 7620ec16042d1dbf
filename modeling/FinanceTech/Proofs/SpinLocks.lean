import Mathlib.Algebra.BigOperators.Group.List.Basic
import FinanceTech.SpinLock

/-! Each kind of lock keeps the counting threads apart, so that no increment of
theirs is lost, and none of them can keep the others from finishing. -/

namespace FinanceTech.Proofs.SpinLocks
open Library Exclusion SpinLock

theorem compareExchangeWeak_cases (value expected desired : Int) (spurious : Bool) :
    value = expected ∧ spurious = false ∧ compareExchangeWeak value expected desired spurious = (desired, true) ∨
      ¬ (value = expected ∧ spurious = false) ∧ compareExchangeWeak value expected desired spurious = (value, false) := by
  by_cases exchanged : value = expected ∧ spurious = false
  · exact .inl ⟨exchanged.1, exchanged.2, if_pos exchanged⟩
  · exact .inr ⟨exchanged, if_neg exchanged⟩

private theorem eq_zero_of_bne {value : Int} (same : (value != 0) = false) : value = 0 := by
  simpa using same

theorem exchangeLock_exclusive (limit : Nat) : (exchangeLock limit).Exclusive (fun isLocked : Int => isLocked != 0) where
  created := rfl
  waits isLocked retries spurious next went := by
    simp only [exchangeLock] at went ⊢
    obtain ⟨-, -, same⟩ | ⟨-, same⟩ := compareExchangeWeak_cases isLocked 0 1 spurious
    · rw [same] at went
      cases went
    · rw [same]
  returns isLocked retries spurious went := by
    simp only [exchangeLock] at went ⊢
    obtain ⟨free, -, same⟩ | ⟨-, same⟩ := compareExchangeWeak_cases isLocked 0 1 spurious
    · rw [same, free]
      exact ⟨rfl, rfl⟩
    · rw [same] at went
      cases went
  obtains isLocked retries free := by
    have zero := eq_zero_of_bne free
    simp only [exchangeLock]
    obtain ⟨-, -, same⟩ | ⟨failed, -⟩ := compareExchangeWeak_cases isLocked 0 1 false
    · rw [same]
    · exact absurd ⟨zero, rfl⟩ failed
  released _ := rfl

private theorem slowSpinLock_exclusive : SlowSpinLock.Exclusive (fun mtx : Bool => mtx) where
  created := rfl
  waits mtx call spurious next went := by
    cases mtx with
    | false => cases went
    | true => rfl
  returns mtx call spurious went := by
    cases mtx with
    | false => exact ⟨rfl, rfl⟩
    | true => cases went
  obtains mtx call free := by
    obtain rfl : mtx = false := free
    rfl
  released _ := rfl

/-- When a lock is taken. -/
def taken : (type : SpinLockType) → type.lock.Object → Bool
  | .FastSpinLock | .FastSpinLockChrono => fun isLocked : Int => isLocked != 0
  | .SlowSpinLock => fun mtx : Bool => mtx

theorem lock_exclusive (type : SpinLockType) : type.lock.Exclusive (taken type) := by
  cases type with
  | FastSpinLock => exact exchangeLock_exclusive 7
  | FastSpinLockChrono => exact exchangeLock_exclusive 7
  | SlowSpinLock => exact slowSpinLock_exclusive

theorem run_ordered (type : SpinLockType) (threadsMax iterCount : Nat) (turns : List (Nat × Bool)) :
    Ordered (taken type) increment 0 (List.replicate threadsMax (List.replicate iterCount ()))
      ((test type threadsMax iterCount).run increment turns) :=
  (ordered_start (lock_exclusive type) _ _ _).run (lock_exclusive type) turns

private theorem foldl_increment (made : List Unit) (counter : UInt64) :
    made.foldl (fun value item => increment item value) counter = counter + UInt64.ofNat made.length := by
  induction made generalizing counter with
  | nil => exact (UInt64.add_zero counter).symm
  | cons item rest ih =>
    rw [List.foldl_cons, ih, List.length_cons, Nat.add_comm, UInt64.ofNat_add, ← UInt64.add_assoc]
    rfl

theorem counter_eq {type : SpinLockType} {programs : List (List Unit)} {state : State type.lock UInt64 Unit}
    (ordered : Ordered (taken type) increment 0 programs state) : state.shared = UInt64.ofNat state.made.length := by
  rw [ordered.applied, foldl_increment, UInt64.zero_add]

/-- With each kind of lock, any number of threads and any order of their steps: no
two threads are between `lock` and `unlock`, the counter is the number of
increments made, and when the threads have finished it counts all iterations. -/
theorem test_counts (type : SpinLockType) (threadsMax iterCount : Nat) (turns : List (Nat × Bool)) :
    let state := (test type threadsMax iterCount).run increment turns
    (∀ (first second : Nat) (one other : Thread type.lock UInt64 Unit), state.threads[first]? = some one →
      state.threads[second]? = some other → one.inside = 1 → other.inside = 1 → first = second) ∧
    state.shared = UInt64.ofNat state.made.length ∧
    (state.Finished → state.shared = UInt64.ofNat (threadsMax * iterCount)) := by
  have ordered := run_ordered type threadsMax iterCount turns
  refine ⟨fun first second one other => ordered.alone, counter_eq ordered, fun finished => ?_⟩
  have made := ordered.made_length_of_finished finished
  rw [List.map_replicate, List.length_replicate, List.sum_replicate_nat] at made
  rw [counter_eq ordered, made]

/-- Wherever the threads of a test have got to, they can still all finish. -/
theorem test_completes (type : SpinLockType) (threadsMax iterCount : Nat) (turns : List (Nat × Bool)) :
    ∃ more, ((test type threadsMax iterCount).run increment (turns ++ more)).Finished := by
  obtain ⟨more, -, finished⟩ := (run_ordered type threadsMax iterCount turns).completes (lock_exclusive type)
  refine ⟨more, ?_⟩
  rw [State.run, List.foldl_append]
  exact finished

end FinanceTech.Proofs.SpinLocks
