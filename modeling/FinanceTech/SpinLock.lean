import FinanceTech.Library.Exclusion

/-! The spin locks, and the threads that count under one of them. Acquiring an
exchange and releasing with a store order what happens between them, so the steps
of the threads are taken one at a time. -/

namespace FinanceTech.SpinLock
open Library

/-- What the atomic holds after a weak exchange, and whether it succeeded. It may
fail although the atomic holds what is expected. -/
def compareExchangeWeak (value expected desired : Int) (spurious : Bool) : Int × Bool :=
  if value = expected ∧ spurious = false then (desired, true) else (value, false)

/-- The counter of the loop in `lock`, which starts again at a limit. -/
structure Retries (limit : Nat) where
  n : Nat := 0
  bounded : n ≤ limit := by exact Nat.zero_le _

/-- What the loop does between two exchanges. At the limit it sleeps. -/
def Retries.next {limit : Nat} (retries : Retries (limit + 1)) : Retries (limit + 1) where
  n := (if retries.n = limit + 1 then 0 else retries.n) + 1
  bounded := by
    have bounded := retries.bounded
    split
    · exact Nat.succ_le_succ (Nat.zero_le limit)
    · omega

/-- Exchanging in a loop; `expected` is 0 again before each exchange. -/
def exchangeLock (limit : Nat) : Exclusion.Lock where
  Object := Int
  Call := Retries (limit + 1)
  create := 0
  enter := {}
  attempt isLocked retries spurious :=
    match compareExchangeWeak isLocked 0 1 spurious with
    | (isLocked, true) => (isLocked, none)
    | (isLocked, false) => (isLocked, some retries.next)
  release _ := 0

/-- The three kinds of lock that `test` runs with. -/
inductive SpinLockType where
  | FastSpinLock | FastSpinLockChrono | SlowSpinLock
deriving DecidableEq, Repr

def FastSpinLock : Exclusion.Lock := exchangeLock 7

/-- Another way to sleep. -/
def FastSpinLockChrono : Exclusion.Lock := exchangeLock 7

/-- Around a `std::mutex`, whose `lock` waits until nobody owns it. -/
def SlowSpinLock : Exclusion.Lock where
  Object := Bool
  Call := Unit
  create := false
  enter := ()
  attempt mtx _ _ := if mtx then (mtx, some ()) else (true, none)
  release _ := false

def SpinLockType.lock : SpinLockType → Exclusion.Lock
  | .FastSpinLock => SpinLock.FastSpinLock
  | .FastSpinLockChrono => SpinLock.FastSpinLockChrono
  | .SlowSpinLock => SpinLock.SlowSpinLock

/-- `++counter`; its load and its store are two steps. -/
def increment (_ : Unit) (counter : UInt64) : UInt64 := counter + 1

/-- The threads of a test before their first step. -/
def test (type : SpinLockType) (threadsMax iterCount : Nat) : Exclusion.State type.lock UInt64 Unit :=
  .start type.lock 0 (List.replicate threadsMax (List.replicate iterCount ()))

end FinanceTech.SpinLock
