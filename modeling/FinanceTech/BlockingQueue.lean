import FinanceTech.Library.Threads

/-! The blocking queue with the threads that push to it and pop from it. The mutex
is taken and given back in steps of their own, and a thread that finds the queue
empty sleeps until it is notified, or wakes up on its own or at the timeout. -/

namespace FinanceTech.BlockingQueue

variable {α : Type}

inductive Operation (α : Type) where
  | push (value : α)
  | pop
deriving DecidableEq, Repr

/-- Where a thread is in `push` or `pop`. A `late` wait is one that timed out. -/
inductive Place (α : Type) where
  | idle
  | pushing (value : α)
  | storing (value : α)
  | stored
  | notifying
  | popping
  | checking (late : Bool)
  | asleep
  | woken (late : Bool)
  | taking
  | leaving (result : Option α)
deriving DecidableEq, Repr

/-- A thread with what its calls of `pop` have returned. -/
structure Thread (α : Type) where
  todo : List (Operation α)
  place : Place α := .idle
  results : List (Option α) := []
deriving DecidableEq, Repr

/-- The queue after a step of one thread, that thread, what the step has added to
the queue and taken from it, and whether it notifies. -/
structure Outcome (α : Type) where
  data_queue : List α
  mutex : Bool
  thread : Thread α
  pushed : List α := []
  popped : List α := []
  notifies : Bool := false
deriving DecidableEq, Repr

/-- The next step of a thread, if it can take one: it waits for the mutex, and
while it is asleep. The front of an empty queue is undefined. -/
def Thread.advance (thread : Thread α) (data_queue : List α) (mutex : Bool) : Option (Outcome α) :=
  match thread.place with
  | .idle =>
    match thread.todo with
    | [] => none
    | .push value :: todo => some { data_queue, mutex, thread := { thread with todo, place := .pushing value } }
    | .pop :: todo => some { data_queue, mutex, thread := { thread with todo, place := .popping } }
  | .pushing value =>
    if mutex then none else some { data_queue, mutex := true, thread := { thread with place := .storing value } }
  | .storing value =>
    some { data_queue := data_queue ++ [value], mutex, thread := { thread with place := .stored }, pushed := [value] }
  | .stored => some { data_queue, mutex := false, thread := { thread with place := .notifying } }
  | .notifying => some { data_queue, mutex, thread := { thread with place := .idle }, notifies := true }
  | .popping =>
    if mutex then none else some { data_queue, mutex := true, thread := { thread with place := .checking false } }
  | .checking late =>
    match data_queue with
    | _ :: _ => some { data_queue, mutex, thread := { thread with place := .taking } }
    | [] =>
      -- `wait_for` gives up only after it has looked at the queue once more
      if late then some { data_queue, mutex, thread := { thread with place := .leaving none } }
      else some { data_queue, mutex := false, thread := { thread with place := .asleep } }
  | .asleep => none
  | .woken late =>
    if mutex then none else some { data_queue, mutex := true, thread := { thread with place := .checking late } }
  | .taking =>
    match data_queue with
    | [] => none
    | value :: data_queue =>
      some { data_queue, mutex, thread := { thread with place := .leaving (some value) }, popped := [value] }
  | .leaving result =>
    some { data_queue, mutex := false, thread := { thread with place := .idle, results := thread.results ++ [result] } }

def Thread.isAsleep (thread : Thread α) : Bool :=
  match thread.place with
  | .asleep => true
  | _ => false

/-- Wake a sleeping thread. -/
def wake (threads : List (Thread α)) (index : Nat) (late : Bool) : List (Thread α) :=
  match threads[index]? with
  | none => threads
  | some thread => if thread.isAsleep then threads.set index { thread with place := .woken late } else threads

/-- Wake the first choice, or else another thread if any is asleep. -/
def notify_one (threads : List (Thread α)) (choice : Nat) : List (Thread α) :=
  if threads[choice]?.any Thread.isAsleep then wake threads choice false
  else wake threads (threads.findIdx Thread.isAsleep) false

/-- All threads around a queue, with the values pushed and popped so far and the
thread of each. -/
structure State (α : Type) where
  data_queue : List α := []
  mutex : Bool := false
  threads : List (Thread α)
  pushed : List (Nat × α) := []
  popped : List (Nat × α) := []
deriving DecidableEq, Repr

/-- A thread takes its next step, with the thread that it would notify, or a
sleeping thread wakes up without having been notified. -/
inductive Turn where
  | advance (index choice : Nat)
  | wakes (index : Nat) (late : Bool)
deriving DecidableEq, Repr

namespace State

def start (programs : List (List (Operation α))) : State α := { threads := programs.map fun todo => { todo } }

/-- A turn, if it is possible. -/
def step (state : State α) : Turn → Option (State α)
  | .advance index choice => do
    let thread ← state.threads[index]?
    let outcome ← thread.advance state.data_queue state.mutex
    let threads := state.threads.set index outcome.thread
    return {
      data_queue := outcome.data_queue
      mutex := outcome.mutex
      threads := if outcome.notifies then notify_one threads choice else threads
      pushed := state.pushed ++ outcome.pushed.map (index, ·)
      popped := state.popped ++ outcome.popped.map (index, ·) }
  | .wakes index late => some { state with threads := wake state.threads index late }

/-- A turn that is not possible changes nothing. -/
def run (state : State α) (turns : List Turn) : State α := turns.foldl (fun state turn => (state.step turn).getD state) state

/-- What one thread has pushed, and what it has popped. -/
def pushedBy (state : State α) (index : Nat) : List α := Library.Threads.ofThread state.pushed index

def poppedBy (state : State α) (index : Nat) : List α := Library.Threads.ofThread state.popped index

end State

/-! ### What threads have done and have still to do -/

def Operation.pushes : Operation α → List α
  | .push value => [value]
  | .pop => []

def Operation.pops : Operation α → Nat
  | .push _ => 0
  | .pop => 1

/-- The values that a program pushes. -/
def pushes (program : List (Operation α)) : List α := program.flatMap Operation.pushes

/-- How often a program pops. -/
def pops (program : List (Operation α)) : Nat := (program.map Operation.pops).sum

def Thread.Finished (thread : Thread α) : Prop := thread.todo = [] ∧ thread.place = .idle

def State.Finished (state : State α) : Prop := ∀ thread ∈ state.threads, thread.Finished

end FinanceTech.BlockingQueue
