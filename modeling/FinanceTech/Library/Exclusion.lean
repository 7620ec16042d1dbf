import FinanceTech.Library.Runs
import FinanceTech.Library.Threads

/-! Threads that update a shared variable, each update between the `lock` and the
`unlock` of one lock. An update loads the variable and stores it in two steps, and
the steps of all threads interleave in any order; the lock makes them act one
after the other. -/

namespace FinanceTech.Library.Exclusion
open Threads

/-- A lock as its threads see it: one step of `lock`, which returns or goes on, and
`unlock`. The flag is for a step that may fail although the lock is free. -/
structure Lock where
  Object : Type
  Call : Type
  create : Object
  enter : Call
  attempt : Object → Call → Bool → Object × Option Call
  release : Object → Object

/-- `lock` goes on while the lock is taken and returns with it taken, and a step
that does not fail for no reason gets a free lock. -/
structure Lock.Exclusive (lock : Lock) (taken : lock.Object → Bool) : Prop where
  created : taken lock.create = false
  waits : ∀ object call spurious next, (lock.attempt object call spurious).2 = some next →
    taken (lock.attempt object call spurious).1 = taken object
  returns : ∀ object call spurious, (lock.attempt object call spurious).2 = none →
    taken object = false ∧ taken (lock.attempt object call spurious).1 = true
  obtains : ∀ object call, taken object = false → (lock.attempt object call false).2 = none
  released : ∀ object, taken (lock.release object) = false

variable {lock : Lock} {σ ι : Type}

/-- Where a thread is, with the update it is about to make. -/
inductive Place (lock : Lock) (σ ι : Type) where
  | outside
  | trying (item : ι) (call : lock.Call)
  | loading (item : ι)
  | storing (item : ι) (value : σ)
  | releasing

structure Thread (lock : Lock) (σ ι : Type) where
  todo : List ι
  place : Place lock σ ι := .outside

namespace Thread

/-- Between `lock` and `unlock`. -/
def inside (thread : Thread lock σ ι) : Nat :=
  match thread.place with
  | .outside | .trying _ _ => 0
  | .loading _ | .storing _ _ | .releasing => 1

/-- The updates that the thread has not made yet. -/
def pending (thread : Thread lock σ ι) : List ι :=
  match thread.place with
  | .outside | .releasing => thread.todo
  | .trying item _ | .loading item | .storing item _ => item :: thread.todo

def Finished (thread : Thread lock σ ι) : Prop := thread.todo = [] ∧ thread.place = .outside

end Thread

/-- The lock and the variable after a step of one thread, that thread, and the
updates that the step has made. -/
structure Outcome (lock : Lock) (σ ι : Type) where
  object : lock.Object
  shared : σ
  thread : Thread lock σ ι
  made : List ι := []

/-- The next step of a thread. -/
def Thread.advance (update : ι → σ → σ) (thread : Thread lock σ ι) (object : lock.Object) (shared : σ) (spurious : Bool) :
    Outcome lock σ ι :=
  match thread.place with
  | .outside =>
    match thread.todo with
    | [] => { object, shared, thread }
    | item :: todo => { object, shared, thread := { todo, place := .trying item lock.enter } }
  | .trying item call =>
    match lock.attempt object call spurious with
    | (object, some call) => { object, shared, thread := { thread with place := .trying item call } }
    | (object, none) => { object, shared, thread := { thread with place := .loading item } }
  | .loading item => { object, shared, thread := { thread with place := .storing item (update item shared) } }
  | .storing item value => { object, shared := value, thread := { thread with place := .releasing }, made := [item] }
  | .releasing => { object := lock.release object, shared, thread := { thread with place := .outside } }

/-- All threads, and the updates made so far with the thread of each. -/
structure State (lock : Lock) (σ ι : Type) where
  object : lock.Object
  shared : σ
  threads : List (Thread lock σ ι)
  log : List (Nat × ι) := []

namespace State

def start (lock : Lock) (initial : σ) (programs : List (List ι)) : State lock σ ι :=
  { object := lock.create, shared := initial, threads := programs.map fun todo => { todo } }

/-- The thread at an index takes its next step. -/
def step (update : ι → σ → σ) (state : State lock σ ι) (turn : Nat × Bool) : State lock σ ι :=
  match state.threads[turn.1]? with
  | none => state
  | some thread =>
    let outcome := thread.advance update state.object state.shared turn.2
    { object := outcome.object, shared := outcome.shared, threads := state.threads.set turn.1 outcome.thread
      log := state.log ++ outcome.made.map (turn.1, ·) }

def run (update : ι → σ → σ) (state : State lock σ ι) (turns : List (Nat × Bool)) : State lock σ ι :=
  turns.foldl (step update) state

def Finished (state : State lock σ ι) : Prop := ∀ thread ∈ state.threads, thread.Finished

/-- The updates of one thread, in order. -/
def madeBy (state : State lock σ ι) (index : Nat) : List ι := ofThread state.log index

/-- The updates of all threads, in order. -/
def made (state : State lock σ ι) : List ι := state.log.map (·.2)

end State

/-! ### What a step of a thread does -/

section Steps

variable {taken : lock.Object → Bool} {update : ι → σ → σ}

/-- A number for each state of the lock, to compare with the threads inside. -/
def weight (taken : lock.Object → Bool) (object : lock.Object) : Nat := if taken object then 1 else 0

/-- A value that the thread is about to store is up to date. -/
def Thread.Current (update : ι → σ → σ) (thread : Thread lock σ ι) (shared : σ) : Prop :=
  match thread.place with
  | .storing item value => value = update item shared
  | _ => True

theorem Thread.current_of_outside {thread : Thread lock σ ι} (outside : thread.inside = 0) {shared : σ} :
    thread.Current update shared := by
  obtain ⟨todo, place⟩ := thread
  cases place with
  | storing item value => exact absurd outside Nat.one_ne_zero
  | _ => trivial

theorem Thread.inside_of_ne (thread : Thread lock σ ι) (entered : thread.inside ≠ 0) : thread.inside = 1 := by
  obtain ⟨todo, place⟩ := thread
  cases place with
  | outside | trying => exact absurd rfl entered
  | loading | storing | releasing => rfl

/-- A step takes the lock as it enters and frees it as it leaves, makes the
updates it takes off the thread, and writes to the variable from inside only. -/
structure Advanced (taken : lock.Object → Bool) (update : ι → σ → σ) (thread : Thread lock σ ι) (object : lock.Object)
    (shared : σ) (outcome : Outcome lock σ ι) : Prop where
  balanced : outcome.thread.inside + weight taken object = thread.inside + weight taken outcome.object
  applied : outcome.shared = outcome.made.foldl (fun value item => update item value) shared
  remaining : outcome.made ++ outcome.thread.pending = thread.pending
  writes : outcome.made ≠ [] → thread.inside = 1
  current : outcome.thread.Current update outcome.shared

theorem Thread.advance_advanced (exclusive : lock.Exclusive taken) {thread : Thread lock σ ι} {object : lock.Object} {shared : σ}
    (current : thread.Current update shared) (entered : thread.inside = 1 → taken object = true) (spurious : Bool) :
    Advanced taken update thread object shared (thread.advance update object shared spurious) := by
  obtain ⟨todo, place⟩ := thread
  cases place with
  | outside =>
    cases todo with
    | nil => exact ⟨rfl, rfl, rfl, fun none => absurd rfl none, trivial⟩
    | cons item rest => exact ⟨rfl, rfl, rfl, fun none => absurd rfl none, trivial⟩
  | trying item call =>
    cases attempted : lock.attempt object call spurious with
    | mk after next =>
      simp only [Thread.advance, attempted]
      cases next with
      | some next =>
        have kept := exclusive.waits object call spurious next (congrArg Prod.snd attempted)
        rw [attempted] at kept
        refine ⟨?_, rfl, rfl, fun none => absurd rfl none, trivial⟩
        simp only [Thread.inside, weight, kept]
      | none =>
        obtain ⟨free, got⟩ := exclusive.returns object call spurious (congrArg Prod.snd attempted)
        rw [attempted] at got
        refine ⟨?_, rfl, rfl, fun none => absurd rfl none, trivial⟩
        simp [Thread.inside, weight, free, got]
  | loading item =>
    exact ⟨rfl, rfl, rfl, fun none => absurd rfl none, rfl⟩
  | storing item value =>
    exact ⟨rfl, current, rfl, fun _ => rfl, trivial⟩
  | releasing =>
    refine ⟨?_, rfl, rfl, fun none => absurd rfl none, trivial⟩
    simp [Thread.advance, Thread.inside, weight, entered rfl, exclusive.released]

end Steps

/-! ### Every run -/

section Runs

variable {taken : lock.Object → Bool} {update : ι → σ → σ} {initial : σ} {programs : List (List ι)} {state : State lock σ ι}

/-- The lock is taken while a thread is inside, there is never a second one, and
the variable has taken each update made so far. -/
structure Ordered (taken : lock.Object → Bool) (update : ι → σ → σ) (initial : σ) (programs : List (List ι))
    (state : State lock σ ι) : Prop where
  counted : tally Thread.inside state.threads = weight taken state.object
  current : ∀ thread ∈ state.threads, thread.Current update state.shared
  applied : state.shared = state.made.foldl (fun value item => update item value) initial
  remaining : ∀ index, (state.threads[index]?).map (state.madeBy index ++ ·.pending) = programs[index]?
  conserved : state.made.length + tally (·.pending.length) state.threads = (programs.map List.length).sum

theorem weight_le_one (taken : lock.Object → Bool) (object : lock.Object) : weight taken object ≤ 1 := by
  rw [weight]
  split
  · exact Nat.le_refl 1
  · exact Nat.zero_le 1

theorem Ordered.taken_of_inside (ordered : Ordered taken update initial programs state) {thread : Thread lock σ ι}
    (found : thread ∈ state.threads) (entered : thread.inside = 1) : taken state.object = true := by
  have least := le_tally Thread.inside found
  rw [entered, ordered.counted, weight] at least
  by_contra free
  rw [if_neg free] at least
  omega

/-- No two threads are inside. -/
theorem Ordered.alone (ordered : Ordered taken update initial programs state) {first second : Nat}
    {one other : Thread lock σ ι} (left : state.threads[first]? = some one) (right : state.threads[second]? = some other)
    (entered : one.inside = 1) (too : other.inside = 1) : first = second := by
  by_contra apart
  have both := tally_pair Thread.inside apart left right
  have most := weight_le_one taken state.object
  rw [← ordered.counted] at most
  omega

theorem ordered_start (exclusive : lock.Exclusive taken) (update : ι → σ → σ) (initial : σ) (programs : List (List ι)) :
    Ordered taken update initial programs (State.start lock initial programs) where
  counted := by
    rw [weight, State.start, exclusive.created, tally, List.map_map]
    exact List.sum_eq_zero fun amount found => by
      obtain ⟨todo, -, rfl⟩ := List.mem_map.mp found
      rfl
  current thread found := by
    obtain ⟨todo, -, rfl⟩ := List.mem_map.mp found
    trivial
  applied := rfl
  remaining index := by
    rw [State.start, List.getElem?_map, Option.map_map]
    exact Option.map_id'
  conserved := by
    rw [State.start, tally, List.map_map]
    exact Nat.zero_add _

theorem Ordered.step (exclusive : lock.Exclusive taken) (ordered : Ordered taken update initial programs state)
    (turn : Nat × Bool) : Ordered taken update initial programs (state.step update turn) := by
  obtain ⟨index, spurious⟩ := turn
  rw [State.step]
  cases found : state.threads[index]? with
  | none => exact ordered
  | some thread =>
    have member := List.mem_of_getElem? found
    have advanced := Thread.advance_advanced exclusive (ordered.current thread member) (ordered.taken_of_inside member) spurious
    simp only
    generalize thread.advance update state.object state.shared spurious = outcome at advanced
    obtain ⟨inside, -⟩ := List.getElem?_eq_some_iff.mp found
    refine ⟨?_, fun other present => ?_, ?_, fun at_ => ?_, ?_⟩
    · have moved := tally_set Thread.inside found outcome.thread
      have counted := ordered.counted
      have balanced := advanced.balanced
      simp only
      omega
    · obtain ⟨place, located⟩ := List.getElem?_of_mem present
      obtain ⟨rfl, rfl⟩ | ⟨apart, located⟩ := set_cases located
      · exact advanced.current
      · have before := ordered.current other (List.mem_of_getElem? located)
        by_cases wrote : outcome.made = []
        · rw [advanced.applied, wrote]
          exact before
        · -- this thread is inside, so the other one is not about to store
          apply Thread.current_of_outside
          by_contra entered
          exact apart (ordered.alone found located (advanced.writes wrote) (other.inside_of_ne entered))
    · rw [State.made, map_snd_append, List.foldl_append, ← State.made, ← ordered.applied]
      exact advanced.applied
    · rw [State.madeBy, ofThread_append]
      by_cases same : index = at_
      · subst same
        rw [List.getElem?_set_self inside, if_pos rfl, ← ordered.remaining index, found, Option.map_some, Option.map_some,
          List.append_assoc, advanced.remaining]
        rfl
      · rw [List.getElem?_set_ne same, if_neg same, List.append_nil]
        exact ordered.remaining at_
    · have moved := tally_set (·.pending.length) found outcome.thread
      have conserved := ordered.conserved
      have remaining := congrArg List.length advanced.remaining
      rw [List.length_append] at remaining
      rw [State.made, map_snd_append, List.length_append, ← State.made]
      simp only
      omega

theorem Ordered.run (exclusive : lock.Exclusive taken) (ordered : Ordered taken update initial programs state)
    (turns : List (Nat × Bool)) : Ordered taken update initial programs (state.run update turns) := by
  have kept := Runs.foldl_preserves
    (fun state turn (kept : Ordered taken update initial programs state) => kept.step exclusive turn) turns ordered
  exact kept

theorem Ordered.made_length_of_finished (ordered : Ordered taken update initial programs state) (finished : state.Finished) :
    state.made.length = (programs.map List.length).sum := by
  have none : tally (·.pending.length) state.threads = 0 := by
    refine List.sum_eq_zero fun amount found => ?_
    obtain ⟨thread, present, rfl⟩ := List.mem_map.mp found
    obtain ⟨done, outside⟩ := finished thread present
    simp only [Thread.pending, outside, done, List.length_nil]
  rw [← ordered.conserved, none, Nat.add_zero]

/-! ### Finishing -/

/-- The steps that a thread still needs when it always gets the lock. -/
def Thread.remaining (thread : Thread lock σ ι) : Nat :=
  5 * thread.todo.length +
    match thread.place with
    | .outside => 0
    | .trying _ _ => 4
    | .loading _ => 3
    | .storing _ _ => 2
    | .releasing => 1

/-- A thread that is inside, or that finds the lock free, gets one step further. -/
theorem Thread.advance_remaining (exclusive : lock.Exclusive taken) (update : ι → σ → σ) {thread : Thread lock σ ι}
    (unfinished : ¬ thread.Finished) (object : lock.Object) (shared : σ) (clear : thread.inside = 1 ∨ taken object = false) :
    (thread.advance update object shared false).thread.remaining < thread.remaining := by
  obtain ⟨todo, place⟩ := thread
  cases place with
  | outside =>
    cases todo with
    | nil => exact absurd ⟨rfl, rfl⟩ unfinished
    | cons item rest =>
      simp only [Thread.advance, Thread.remaining, List.length_cons]
      omega
  | trying item call =>
    have free : taken object = false := clear.resolve_left Nat.zero_ne_one
    have got := exclusive.obtains object call free
    cases attempted : lock.attempt object call false with
    | mk after next =>
      rw [attempted] at got
      obtain rfl : next = none := got
      simp only [Thread.advance, attempted, Thread.remaining]
      omega
  | loading item => exact Nat.lt_succ_self _
  | storing item value => exact Nat.lt_succ_self _
  | releasing => exact Nat.lt_succ_self _

def State.remaining (state : State lock σ ι) : Nat := tally Thread.remaining state.threads

/-- While a thread has not finished, some thread can get one step further. -/
theorem Ordered.progresses (exclusive : lock.Exclusive taken) (ordered : Ordered taken update initial programs state)
    (unfinished : ¬ state.Finished) : ∃ index, (state.step update (index, false)).remaining < state.remaining := by
  obtain ⟨thread, present, open_, clear⟩ : ∃ thread ∈ state.threads, ¬ thread.Finished ∧
      (thread.inside = 1 ∨ taken state.object = false) := by
    cases held : taken state.object with
    | true =>
      -- a taken lock belongs to a thread inside
      have some_ : tally Thread.inside state.threads = 1 := by rw [ordered.counted, weight, if_pos held]
      obtain ⟨thread, present, positive⟩ := exists_pos_of_tally (some_ ▸ Nat.one_pos)
      have entered : thread.inside = 1 := by
        have most := le_tally Thread.inside present
        omega
      refine ⟨thread, present, fun finished => ?_, .inl entered⟩
      rw [Thread.inside, finished.2] at entered
      exact Nat.zero_ne_one entered
    | false =>
      simp only [State.Finished, not_forall] at unfinished
      obtain ⟨thread, present, open_⟩ := unfinished
      exact ⟨thread, present, open_, .inr rfl⟩
  obtain ⟨index, found⟩ := List.getElem?_of_mem present
  have moved := tally_set Thread.remaining found (thread.advance update state.object state.shared false).thread
  have fewer := Thread.advance_remaining exclusive update open_ state.object state.shared clear
  refine ⟨index, ?_⟩
  simp only [State.step, State.remaining, found]
  omega

/-- Every run can be continued until all threads have finished. -/
theorem Ordered.completes (exclusive : lock.Exclusive taken) (ordered : Ordered taken update initial programs state) :
    ∃ turns, turns.length ≤ state.remaining ∧ (state.run update turns).Finished := by
  induction most : state.remaining using Nat.strong_induction_on generalizing state with
  | _ amount ih =>
    by_cases finished : state.Finished
    · exact ⟨[], Nat.zero_le _, finished⟩
    · obtain ⟨index, fewer⟩ := ordered.progresses exclusive finished
      obtain ⟨turns, short, done⟩ := ih _ (most ▸ fewer) (ordered.step exclusive (index, false)) rfl
      refine ⟨(index, false) :: turns, ?_, done⟩
      rw [List.length_cons]
      omega

end Runs
end FinanceTech.Library.Exclusion
