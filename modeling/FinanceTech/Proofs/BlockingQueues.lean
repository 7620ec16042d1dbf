import Mathlib.Data.List.ReduceOption
import FinanceTech.Library.Runs
import FinanceTech.BlockingQueue

/-! The blocking queue loses nothing and keeps the order of the pushes, and no
thread sleeps on while there is something for it in the queue: as long as one
sleeps, every value in the queue has a thread on its way to it. -/

namespace FinanceTech.Proofs.BlockingQueues
open Library Threads BlockingQueue

variable {α : Type}

/-- Holding the mutex. -/
def inside (thread : Thread α) : Nat :=
  match thread.place with
  | .storing _ | .stored | .checking _ | .taking | .leaving _ => 1
  | .idle | .pushing _ | .notifying | .popping | .asleep | .woken _ => 0

def toPush (thread : Thread α) : List α :=
  match thread.place with
  | .pushing value | .storing value => value :: pushes thread.todo
  | _ => pushes thread.todo

def toPop (thread : Thread α) : Nat :=
  match thread.place with
  | .popping | .checking _ | .asleep | .woken _ | .taking | .leaving _ => pops thread.todo + 1
  | .idle | .pushing _ | .storing _ | .stored | .notifying => pops thread.todo

/-- The values that the thread has got from the queue. -/
def received (thread : Thread α) : List α :=
  match thread.place with
  | .leaving (some value) => thread.results.reduceOption ++ [value]
  | _ => thread.results.reduceOption

def sleeping (thread : Thread α) : Nat :=
  match thread.place with
  | .asleep => 1
  | _ => 0

/-- On its way to a value in the queue, or to wake up a thread for one. -/
def alert (thread : Thread α) : Nat :=
  match thread.place with
  | .stored | .notifying | .popping | .checking _ | .woken _ | .taking => 1
  | .idle | .pushing _ | .storing _ | .asleep | .leaving _ => 0

/-- The steps that the thread can still take before it sleeps or has finished. -/
def remaining (thread : Thread α) : Nat :=
  9 * thread.todo.length +
    match thread.place with
    | .idle | .asleep => 0
    | .pushing _ => 8
    | .storing _ => 7
    | .stored => 6
    | .notifying => 5
    | .popping | .woken _ => 4
    | .checking _ => 3
    | .taking => 2
    | .leaving _ => 1

/-- A thread that is about to take a value finds one. -/
def Served (thread : Thread α) (data_queue : List α) : Prop :=
  match thread.place with
  | .taking => data_queue ≠ []
  | _ => True

def weight (mutex : Bool) : Nat := if mutex then 1 else 0

/-- A thread that moves touches the queue only with the mutex, and keeps its account
of the values it pushes and of the ones it pops. -/
structure Moved (thread : Thread α) (data_queue : List α) (mutex : Bool) (outcome : Outcome α) : Prop where
  balanced : inside outcome.thread + weight mutex = inside thread + weight outcome.mutex
  moved : data_queue ++ outcome.pushed = outcome.popped ++ outcome.data_queue
  touches : outcome.data_queue = data_queue ∨ inside thread = 1
  served : Served outcome.thread outcome.data_queue
  pushes : outcome.pushed ++ toPush outcome.thread = toPush thread
  received : received outcome.thread = received thread ++ outcome.popped
  pops : outcome.thread.results.length + toPop outcome.thread = thread.results.length + toPop thread

/-- A step of a thread leaves no value behind that nobody is on the way to, unless
no thread sleeps, and brings the thread nearer to its end. -/
structure Advanced (thread : Thread α) (data_queue : List α) (mutex : Bool) (outcome : Outcome α) : Prop
    extends Moved thread data_queue mutex outcome where
  awake : sleeping thread = 0
  alert : outcome.data_queue = [] ∨ sleeping outcome.thread = 0 ∧
    outcome.data_queue.length + alert thread ≤ data_queue.length + alert outcome.thread + weight outcome.notifies
  shorter : remaining outcome.thread + 4 * weight outcome.notifies < remaining thread

theorem advanced_aside {thread next : Thread α} {data_queue : List α} {mutex after : Bool}
    (balanced : inside next + weight mutex = inside thread + weight after) (served : Served next data_queue)
    (pushes : toPush next = toPush thread) (received : received next = received thread)
    (pops : next.results.length + toPop next = thread.results.length + toPop thread) (awake : sleeping thread = 0)
    (alert : data_queue = [] ∨ sleeping next = 0 ∧ alert thread ≤ alert next)
    (shorter : remaining next < remaining thread) :
    Advanced thread data_queue mutex { data_queue, mutex := after, thread := next } where
  balanced := balanced
  moved := List.append_nil _
  touches := .inl rfl
  served := served
  pushes := pushes
  received := received.trans (List.append_nil _).symm
  pops := pops
  awake := awake
  alert := alert.imp_right fun ⟨up, more⟩ => ⟨up, Nat.add_le_add_left more _⟩
  shorter := shorter

section Places

variable {todo : List (Operation α)} {results : List (Option α)} {data_queue : List α} {mutex : Bool} {outcome : Outcome α}

private theorem idle_advanced (ran : Thread.advance ⟨todo, .idle, results⟩ data_queue mutex = some outcome) :
    Advanced ⟨todo, .idle, results⟩ data_queue mutex outcome := by
  cases todo with
  | nil => cases ran
  | cons operation todo =>
    have longer : 9 * todo.length + 8 < 9 * (todo.length + 1) := by omega
    cases operation with
    | push value =>
      obtain rfl := Option.some.inj ran
      refine advanced_aside rfl trivial rfl rfl ?_ rfl (.inr ⟨rfl, Nat.le_refl _⟩) longer
      simp [toPop, pops, Operation.pops]
    | pop =>
      obtain rfl := Option.some.inj ran
      refine advanced_aside rfl trivial rfl rfl ?_ rfl (.inr ⟨rfl, Nat.zero_le _⟩) ?_
      · simp [toPop, pops, Operation.pops, Nat.add_comm]
      · simp only [remaining, List.length_cons]
        omega

private theorem locked_advanced {place after : Place α}
    (ran : (if mutex then none else some { data_queue, mutex := true, thread := ⟨todo, after, results⟩ }) = some outcome)
    (taken : Advanced ⟨todo, place, results⟩ data_queue false { data_queue, mutex := true, thread := ⟨todo, after, results⟩ }) :
    Advanced ⟨todo, place, results⟩ data_queue mutex outcome := by
  cases mutex with
  | true => cases ran
  | false =>
    obtain rfl := Option.some.inj ran
    exact taken

private theorem storing_advanced (value : α) : Advanced ⟨todo, .storing value, results⟩ data_queue mutex
    { data_queue := data_queue ++ [value], mutex, thread := ⟨todo, .stored, results⟩, pushed := [value] } where
  balanced := rfl
  moved := rfl
  touches := .inr rfl
  served := trivial
  pushes := rfl
  received := (List.append_nil _).symm
  pops := rfl
  awake := rfl
  alert := .inr ⟨rfl, by simp [alert, weight]⟩
  shorter := Nat.lt_succ_self _

private theorem notifying_advanced : Advanced ⟨todo, .notifying, results⟩ data_queue mutex
    { data_queue, mutex, thread := ⟨todo, .idle, results⟩, notifies := true } where
  balanced := rfl
  moved := List.append_nil _
  touches := .inl rfl
  served := trivial
  pushes := rfl
  received := (List.append_nil _).symm
  pops := rfl
  awake := rfl
  alert := .inr ⟨rfl, Nat.le_refl _⟩
  shorter := Nat.lt_succ_self _

private theorem checking_advanced {late : Bool} (ran : Thread.advance ⟨todo, .checking late, results⟩ data_queue true = some outcome) :
    Advanced ⟨todo, .checking late, results⟩ data_queue true outcome := by
  cases data_queue with
  | cons value rest =>
    obtain rfl := Option.some.inj ran
    exact advanced_aside rfl (List.cons_ne_nil value rest) rfl rfl rfl rfl (.inr ⟨rfl, Nat.le_refl _⟩) (Nat.lt_succ_self _)
  | nil =>
    cases late with
    | true =>
      obtain rfl := Option.some.inj ran
      exact advanced_aside rfl trivial rfl rfl rfl rfl (.inl rfl) (by simp only [remaining]; omega)
    | false =>
      obtain rfl := Option.some.inj ran
      exact advanced_aside rfl trivial rfl rfl rfl rfl (.inl rfl) (by simp only [remaining]; omega)

private theorem taking_advanced (ran : Thread.advance ⟨todo, .taking, results⟩ data_queue mutex = some outcome) :
    Advanced ⟨todo, .taking, results⟩ data_queue mutex outcome := by
  cases data_queue with
  | nil => cases ran
  | cons value rest =>
    obtain rfl := Option.some.inj ran
    exact {
      balanced := rfl
      moved := List.append_nil _
      touches := .inr rfl
      served := trivial
      pushes := rfl
      received := rfl
      pops := rfl
      awake := rfl
      alert := .inr ⟨rfl, Nat.le_refl _⟩
      shorter := Nat.lt_succ_self _ }

private theorem leaving_advanced (result : Option α) : Advanced ⟨todo, .leaving result, results⟩ data_queue true
    { data_queue, mutex := false, thread := ⟨todo, .idle, results ++ [result]⟩ } := by
  refine advanced_aside rfl trivial rfl ?_ ?_ rfl (.inr ⟨rfl, Nat.le_refl _⟩) (Nat.lt_succ_self _)
  · cases result with
    | none => simp [received, List.reduceOption_append]
    | some value => simp [received, List.reduceOption_append]
  · simp only [toPop, List.length_append, List.length_singleton]
    omega

end Places

theorem advance_advanced {thread : Thread α} {data_queue : List α} {mutex : Bool} {outcome : Outcome α}
    (ran : thread.advance data_queue mutex = some outcome) (entered : inside thread = 1 → mutex = true) :
    Advanced thread data_queue mutex outcome := by
  obtain ⟨todo, place, results⟩ := thread
  cases place with
  | idle => exact idle_advanced ran
  | pushing value =>
    exact locked_advanced ran (advanced_aside rfl trivial rfl rfl rfl rfl (.inr ⟨rfl, Nat.le_refl _⟩) (Nat.lt_succ_self _))
  | storing value =>
    obtain rfl := Option.some.inj ran
    exact storing_advanced value
  | stored =>
    obtain rfl := Option.some.inj ran
    obtain rfl : mutex = true := entered rfl
    exact advanced_aside rfl trivial rfl rfl rfl rfl (.inr ⟨rfl, Nat.le_refl _⟩) (Nat.lt_succ_self _)
  | notifying =>
    obtain rfl := Option.some.inj ran
    exact notifying_advanced
  | popping =>
    exact locked_advanced ran (advanced_aside rfl trivial rfl rfl rfl rfl (.inr ⟨rfl, Nat.le_refl _⟩) (Nat.lt_succ_self _))
  | checking late =>
    obtain rfl : mutex = true := entered rfl
    exact checking_advanced ran
  | asleep => cases ran
  | woken late =>
    exact locked_advanced ran (advanced_aside rfl trivial rfl rfl rfl rfl (.inr ⟨rfl, Nat.le_refl _⟩) (Nat.lt_succ_self _))
  | taking => exact taking_advanced ran
  | leaving result =>
    obtain rfl := Option.some.inj ran
    obtain rfl : mutex = true := entered rfl
    exact leaving_advanced result

theorem isAsleep_iff {thread : Thread α} : thread.isAsleep = true ↔ thread.place = .asleep := by
  obtain ⟨todo, place, results⟩ := thread
  cases place <;> simp [Thread.isAsleep]

theorem wake_cases (threads : List (Thread α)) (index : Nat) (late : Bool) : wake threads index late = threads ∨
    ∃ thread, threads[index]? = some thread ∧ thread.place = .asleep ∧
      wake threads index late = threads.set index { thread with place := .woken late } := by
  rw [wake]
  cases found : threads[index]? with
  | none => exact .inl rfl
  | some thread =>
    by_cases asleep : thread.isAsleep
    · exact .inr ⟨thread, rfl, isAsleep_iff.mp asleep, if_pos asleep⟩
    · exact .inl (if_neg asleep)

theorem notify_one_cases (threads : List (Thread α)) (choice : Nat) :
    ∃ index, notify_one threads choice = wake threads index false ∧
      (tally sleeping threads = 0 ∨ ∃ thread, threads[index]? = some thread ∧ thread.place = .asleep) := by
  rw [notify_one]
  by_cases chosen : threads[choice]?.any Thread.isAsleep
  · obtain ⟨thread, found, asleep⟩ := (Option.any_eq_true _ _).mp chosen
    exact ⟨choice, if_pos chosen, .inr ⟨thread, found, isAsleep_iff.mp asleep⟩⟩
  · refine ⟨threads.findIdx Thread.isAsleep, if_neg chosen, ?_⟩
    by_cases some_ : ∃ thread ∈ threads, thread.isAsleep
    · have inside := List.findIdx_lt_length_of_exists some_
      have asleep : (threads.get ⟨threads.findIdx Thread.isAsleep, inside⟩).isAsleep := List.findIdx_getElem
      exact .inr ⟨_, List.getElem?_eq_getElem inside, isAsleep_iff.mp asleep⟩
    · refine .inl (List.sum_eq_zero fun amount counted => ?_)
      obtain ⟨thread, present, rfl⟩ := List.mem_map.mp counted
      by_contra positive
      refine some_ ⟨thread, present, isAsleep_iff.mpr ?_⟩
      obtain ⟨todo, place, results⟩ := thread
      cases place with
      | asleep => rfl
      | _ => exact absurd rfl positive

private theorem woken_moved {thread : Thread α} (asleep : thread.place = .asleep) (late : Bool) (data_queue : List α) (mutex : Bool) :
    Moved thread data_queue mutex { data_queue, mutex, thread := { thread with place := .woken late } } := by
  obtain ⟨todo, place, results⟩ := thread
  obtain rfl : place = .asleep := asleep
  exact ⟨rfl, List.append_nil _, .inl rfl, trivial, rfl, (List.append_nil _).symm, rfl⟩

/-- How far a thread has got with its program. -/
structure Follows (program : List (Operation α)) (pushed popped : List α) (thread : Thread α) : Prop where
  pushes : pushed ++ toPush thread = pushes program
  received : received thread = popped
  pops : thread.results.length + toPop thread = pops program

/-- At most one thread has the mutex, the values leave the queue in the order in
which they came, and each thread follows its program. -/
structure Guarded (programs : List (List (Operation α))) (state : State α) : Prop where
  counted : tally inside state.threads = weight state.mutex
  served : ∀ thread ∈ state.threads, Served thread state.data_queue
  ordered : state.pushed.map (·.2) = state.popped.map (·.2) ++ state.data_queue
  follows : ∀ index thread, state.threads[index]? = some thread →
    ∃ program, programs[index]? = some program ∧ Follows program (state.pushedBy index) (state.poppedBy index) thread
  pushTotal : state.pushed.length + tally (fun thread => (toPush thread).length) state.threads =
    (programs.map fun program => (BlockingQueue.pushes program).length).sum
  gotTotal : tally (fun thread => (received thread).length) state.threads = state.popped.length
  popTotal : tally (fun thread => thread.results.length + toPop thread) state.threads = (programs.map BlockingQueue.pops).sum

private theorem guarded_start (programs : List (List (Operation α))) : Guarded programs (State.start programs) where
  counted := by
    refine List.sum_eq_zero fun amount found => ?_
    simp only [State.start, List.map_map, List.mem_map] at found
    obtain ⟨todo, -, rfl⟩ := found
    rfl
  served thread found := by
    obtain ⟨todo, -, rfl⟩ := List.mem_map.mp found
    trivial
  ordered := rfl
  follows index thread found := by
    simp only [State.start, List.getElem?_map, Option.map_eq_some_iff] at found
    obtain ⟨program, given, rfl⟩ := found
    exact ⟨program, given, rfl, rfl, Nat.zero_add _⟩
  pushTotal := by
    simp only [State.start, tally, List.map_map, List.length_nil, Nat.zero_add]
    rfl
  gotTotal := by
    refine List.sum_eq_zero fun amount found => ?_
    simp only [State.start, List.map_map, List.mem_map] at found
    obtain ⟨todo, -, rfl⟩ := found
    rfl
  popTotal := by
    simp only [State.start, tally, List.map_map]
    refine congrArg List.sum (List.map_congr_left fun program _ => ?_)
    exact Nat.zero_add _

def install (state : State α) (index : Nat) (outcome : Outcome α) : State α where
  data_queue := outcome.data_queue
  mutex := outcome.mutex
  threads := state.threads.set index outcome.thread
  pushed := state.pushed ++ outcome.pushed.map (index, ·)
  popped := state.popped ++ outcome.popped.map (index, ·)

variable {programs : List (List (Operation α))} {state : State α}

theorem Guarded.mutex_of_inside (guarded : Guarded programs state) {thread : Thread α} (found : thread ∈ state.threads)
    (entered : inside thread = 1) : state.mutex = true := by
  have least := le_tally inside found
  rw [entered, guarded.counted] at least
  by_contra free
  rw [weight, if_neg free] at least
  omega

theorem weight_le_one (mutex : Bool) : weight mutex ≤ 1 := by
  cases mutex with
  | false => exact Nat.zero_le 1
  | true => exact Nat.le_refl 1

theorem Guarded.alone (guarded : Guarded programs state) {first second : Nat} {one other : Thread α}
    (left : state.threads[first]? = some one) (right : state.threads[second]? = some other) (entered : inside one = 1)
    (too : inside other = 1) : first = second := by
  by_contra apart
  have both := tally_pair inside apart left right
  have most := weight_le_one state.mutex
  rw [guarded.counted] at both
  omega

private theorem served_of_outside {thread : Thread α} (outside : inside thread ≠ 1) (data_queue : List α) : Served thread data_queue := by
  obtain ⟨todo, place, results⟩ := thread
  cases place with
  | taking => exact absurd rfl outside
  | _ => trivial

private theorem Guarded.installed (guarded : Guarded programs state) {index : Nat} {thread : Thread α}
    (found : state.threads[index]? = some thread) {outcome : Outcome α} (moved : Moved thread state.data_queue state.mutex outcome) :
    Guarded programs (install state index outcome) where
  counted := by
    have changed := tally_set inside found outcome.thread
    have counted := guarded.counted
    have balanced := moved.balanced
    simp only [install]
    omega
  served other present := by
    obtain ⟨at_, located⟩ := List.getElem?_of_mem present
    obtain ⟨-, rfl⟩ | ⟨apart, located⟩ := set_cases located
    · exact moved.served
    · obtain untouched | entered := moved.touches
      · rw [install, untouched]
        exact guarded.served other (List.mem_of_getElem? located)
      · -- the queue has changed under the mutex, which the other thread does not have
        exact served_of_outside (fun too => apart (guarded.alone found located entered too)) _
  ordered := by
    simp only [install, map_snd_append]
    rw [guarded.ordered, List.append_assoc, moved.moved, List.append_assoc]
  follows other next located := by
    simp only [State.pushedBy, State.poppedBy, install, ofThread_append]
    obtain ⟨rfl, rfl⟩ | ⟨apart, located⟩ := set_cases located
    · obtain ⟨program, given, follows⟩ := guarded.follows index thread found
      refine ⟨program, given, ?_, ?_, ?_⟩
      · rw [if_pos rfl, List.append_assoc, moved.pushes]
        exact follows.pushes
      · rw [if_pos rfl, moved.received, follows.received]
        rfl
      · exact moved.pops.trans follows.pops
    · rw [if_neg apart, if_neg apart, List.append_nil, List.append_nil]
      exact guarded.follows other next located
  pushTotal := by
    have changed := tally_set (fun thread => (toPush thread).length) found outcome.thread
    have pushes := guarded.pushTotal
    have kept := congrArg List.length moved.pushes
    rw [List.length_append] at kept
    simp only [install, List.length_append, List.length_map]
    omega
  gotTotal := by
    have changed := tally_set (fun thread => (received thread).length) found outcome.thread
    have got := guarded.gotTotal
    have more := congrArg List.length moved.received
    rw [List.length_append] at more
    simp only [install, List.length_append, List.length_map]
    omega
  popTotal := by
    have changed := tally_set (fun thread => thread.results.length + toPop thread) found outcome.thread
    have pops := guarded.popTotal
    have kept := moved.pops
    simp only [install]
    omega

theorem Guarded.wake (guarded : Guarded programs state) (index : Nat) (late : Bool) :
    Guarded programs { state with threads := wake state.threads index late } := by
  obtain same | ⟨thread, found, asleep, same⟩ := wake_cases state.threads index late
  · rw [same]
    exact guarded
  · have placed := guarded.installed found (woken_moved asleep late state.data_queue state.mutex)
    simp only [install, List.map_nil, List.append_nil] at placed
    rw [same]
    exact placed

theorem step_cases {turn : Turn} {next : State α} (ran : state.step turn = some next) :
    (∃ index choice thread outcome, turn = .advance index choice ∧ state.threads[index]? = some thread ∧
      thread.advance state.data_queue state.mutex = some outcome ∧
      next = { install state index outcome with
        threads := if outcome.notifies then notify_one (state.threads.set index outcome.thread) choice
          else state.threads.set index outcome.thread }) ∨
    ∃ index late, turn = .wakes index late ∧ next = { state with threads := wake state.threads index late } := by
  cases turn with
  | advance index choice =>
    obtain ⟨thread, found, ran⟩ := Option.bind_eq_some_iff.mp ran
    obtain ⟨outcome, advanced, same⟩ := Option.bind_eq_some_iff.mp ran
    exact .inl ⟨index, choice, thread, outcome, rfl, found, advanced, (Option.some.inj same).symm⟩
  | wakes index late => exact .inr ⟨index, late, rfl, (Option.some.inj ran).symm⟩

theorem Guarded.step (guarded : Guarded programs state) {turn : Turn} {next : State α} (ran : state.step turn = some next) :
    Guarded programs next := by
  obtain ⟨index, choice, thread, outcome, -, found, advanced, rfl⟩ | ⟨index, late, -, rfl⟩ := step_cases ran
  · have moved := (advance_advanced advanced (guarded.mutex_of_inside (List.mem_of_getElem? found))).toMoved
    have placed := guarded.installed found moved
    cases notifies : outcome.notifies with
    | false => exact placed
    | true =>
      obtain ⟨woken, same, -⟩ := notify_one_cases (state.threads.set index outcome.thread) choice
      rw [if_pos rfl, same]
      exact placed.wake woken false
  · exact guarded.wake index late

/-- Either no thread sleeps, or each value in the queue has a thread on the way. -/
def Attended (state : State α) : Prop :=
  tally sleeping state.threads = 0 ∨ state.data_queue.length ≤ tally alert state.threads

private theorem sleeping_wake_le (threads : List (Thread α)) (index : Nat) (late : Bool) :
    tally sleeping (wake threads index late) ≤ tally sleeping threads := by
  obtain same | ⟨thread, found, -, same⟩ := wake_cases threads index late
  · rw [same]
  · have changed := tally_set sleeping found { thread with place := .woken late }
    have up : sleeping { thread with place := .woken late } = 0 := rfl
    rw [same]
    omega

theorem alert_wake {threads : List (Thread α)} {index : Nat} {thread : Thread α} (found : threads[index]? = some thread)
    (asleep : thread.place = .asleep) (late : Bool) : tally alert (wake threads index late) = tally alert threads + 1 := by
  obtain ⟨todo, place, results⟩ := thread
  obtain rfl : place = .asleep := asleep
  have changed := tally_set alert found ⟨todo, .woken late, results⟩
  have idle : alert (⟨todo, .asleep, results⟩ : Thread α) = 0 := rfl
  have up : alert (⟨todo, .woken late, results⟩ : Thread α) = 1 := rfl
  rw [wake, found]
  simp only [Thread.isAsleep, if_true]
  omega

theorem sleeping_pos {threads : List (Thread α)} {index : Nat} {thread : Thread α} (found : threads[index]? = some thread)
    (asleep : thread.place = .asleep) : 0 < tally sleeping threads := by
  have least := le_tally sleeping (List.mem_of_getElem? found)
  rw [sleeping, asleep] at least
  exact least

private theorem attended_wake (attended : Attended state) (index : Nat) (late : Bool) :
    Attended { state with threads := wake state.threads index late } := by
  obtain none | enough := attended
  · exact .inl (Nat.le_zero.mp (none ▸ sleeping_wake_le state.threads index late))
  · obtain same | ⟨thread, found, asleep, -⟩ := wake_cases state.threads index late
    · rw [same]
      exact .inr enough
    · refine .inr ?_
      simp only [alert_wake found asleep]
      omega

theorem Guarded.attended (guarded : Guarded programs state) (attended : Attended state) {turn : Turn} {next : State α}
    (ran : state.step turn = some next) : Attended next := by
  obtain ⟨index, choice, thread, outcome, -, found, went, rfl⟩ | ⟨index, late, -, rfl⟩ := step_cases ran
  · have advanced := advance_advanced went (guarded.mutex_of_inside (List.mem_of_getElem? found))
    have slept := tally_set sleeping found outcome.thread
    have alerted := tally_set alert found outcome.thread
    have awake := advanced.awake
    obtain empty | ⟨up, more⟩ := advanced.alert
    · refine .inr ?_
      simp only [install, empty, List.length_nil]
      exact Nat.zero_le _
    · cases notifies : outcome.notifies with
      | false =>
        simp only [notifies, weight, Bool.false_eq_true, if_false] at more
        refine attended.imp (fun none => ?_) fun enough => ?_
        · simp only [Bool.false_eq_true, if_false]
          omega
        · simp only [install, Bool.false_eq_true, if_false]
          omega
      | true =>
        simp only [notifies, weight, if_true] at more
        obtain ⟨woken, same, none | ⟨sleeper, located, asleep⟩⟩ :=
          notify_one_cases (state.threads.set index outcome.thread) choice
        · refine .inl ?_
          simp only [if_true, same]
          exact Nat.le_zero.mp (none ▸ sleeping_wake_le _ woken false)
        · have positive := sleeping_pos located asleep
          refine .inr ?_
          simp only [if_true, same, install, alert_wake located asleep]
          obtain none | enough := attended
          · omega
          · omega
  · exact attended_wake attended index late

theorem run_guarded (programs : List (List (Operation α))) (turns : List Turn) :
    Guarded programs ((State.start programs).run turns) ∧ Attended ((State.start programs).run turns) := by
  have initial : Guarded programs (State.start programs) ∧ Attended (State.start programs) :=
    ⟨guarded_start programs, .inr (Nat.zero_le _)⟩
  exact Runs.foldl_getD_preserves
    (fun state turn next (kept : Guarded programs state ∧ Attended state) ran =>
      ⟨kept.1.step ran, kept.1.attended kept.2 ran⟩) turns initial

/-- Whatever the threads do, and whenever they wake up: the values pushed are the
ones popped followed by the ones in the queue, in one order; each thread has
pushed what its program pushes, up to where it has got; and its calls of `pop`
have returned the values that it has taken out. -/
theorem queue_conserves (programs : List (List (Operation α))) (turns : List Turn) :
    let state := (State.start programs).run turns
    state.pushed.map (·.2) = state.popped.map (·.2) ++ state.data_queue ∧
    ∀ index thread, state.threads[index]? = some thread → ∃ program, programs[index]? = some program ∧
      state.pushedBy index ++ toPush thread = pushes program ∧ state.poppedBy index = received thread := by
  obtain ⟨guarded, -⟩ := run_guarded programs turns
  refine ⟨guarded.ordered, fun index thread found => ?_⟩
  obtain ⟨program, given, follows⟩ := guarded.follows index thread found
  exact ⟨program, given, follows.pushes, follows.received.symm⟩

/-- The steps that all threads can still take before they sleep or have finished. -/
def stepsLeft (state : State α) : Nat := tally remaining state.threads

private theorem remaining_wake_le (threads : List (Thread α)) (index : Nat) (late : Bool) :
    tally remaining (wake threads index late) ≤ tally remaining threads + 4 := by
  obtain same | ⟨thread, found, asleep, same⟩ := wake_cases threads index late
  · rw [same]
    exact Nat.le_add_right _ 4
  · have changed := tally_set remaining found { thread with place := .woken late }
    have down : remaining thread = 9 * thread.todo.length := by
      rw [remaining, asleep]
      rfl
    have up : remaining { thread with place := .woken late } = 9 * thread.todo.length + 4 := rfl
    rw [same]
    omega

theorem Guarded.shorter (guarded : Guarded programs state) {index choice : Nat} {next : State α}
    (ran : state.step (.advance index choice) = some next) : stepsLeft next < stepsLeft state := by
  obtain ⟨_, _, thread, outcome, -, found, went, rfl⟩ | ⟨_, _, other, -⟩ := step_cases ran
  · rename_i at_ chosen
    have advanced := advance_advanced went (guarded.mutex_of_inside (List.mem_of_getElem? found))
    have changed := tally_set remaining found outcome.thread
    have shorter := advanced.shorter
    cases notifies : outcome.notifies with
    | false =>
      simp only [notifies, weight, Bool.false_eq_true, if_false] at shorter
      simp only [stepsLeft, Bool.false_eq_true, if_false]
      omega
    | true =>
      simp only [notifies, weight, if_true] at shorter
      obtain ⟨woken, same, -⟩ := notify_one_cases (state.threads.set at_ outcome.thread) chosen
      have most := remaining_wake_le (state.threads.set at_ outcome.thread) woken false
      simp only [stepsLeft, if_true, same]
      omega
  · cases other

/-- While nobody wakes up on its own, the threads cannot go on for ever. -/
theorem Guarded.bounded (guarded : Guarded programs state) {turns : List (Nat × Nat)} {final : State α}
    (ran : turns.foldlM (fun state turn => state.step (.advance turn.1 turn.2)) state = some final) :
    turns.length ≤ stepsLeft state := by
  induction turns generalizing state with
  | nil => exact Nat.zero_le _
  | cons turn rest ih =>
    obtain ⟨next, moved, rest⟩ := Option.bind_eq_some_iff.mp ran
    have fewer := guarded.shorter moved
    have more := ih (guarded.step moved) rest
    rw [List.length_cons]
    omega

/-- No thread can take a step. -/
def Stuck (state : State α) : Prop := ∀ index choice, state.step (.advance index choice) = none

theorem Stuck.advance (stuck : Stuck state) {thread : Thread α} (found : thread ∈ state.threads) :
    thread.advance state.data_queue state.mutex = none := by
  obtain ⟨index, located⟩ := List.getElem?_of_mem found
  have blocked := stuck index 0
  cases went : thread.advance state.data_queue state.mutex with
  | none => rfl
  | some outcome =>
    simp only [State.step, located, went, Option.bind_eq_bind, Option.bind_some] at blocked
    cases blocked

private theorem advance_of_inside {thread : Thread α} (entered : inside thread = 1) {data_queue : List α}
    (served : Served thread data_queue) (mutex : Bool) : thread.advance data_queue mutex ≠ none := by
  obtain ⟨todo, place, results⟩ := thread
  cases place with
  | storing | stored | leaving => exact Option.some_ne_none _
  | checking late =>
    cases data_queue with
    | cons value rest => exact Option.some_ne_none _
    | nil => cases late <;> exact Option.some_ne_none _
  | taking =>
    cases data_queue with
    | cons value rest => exact Option.some_ne_none _
    | nil => exact absurd rfl served
  | idle | pushing | notifying | popping | asleep | woken => exact absurd entered Nat.zero_ne_one

theorem Guarded.resting_of_stuck (guarded : Guarded programs state) (stuck : Stuck state) {thread : Thread α}
    (found : thread ∈ state.threads) : thread.Finished ∨ thread.place = .asleep := by
  have outside : ∀ other ∈ state.threads, inside other ≠ 1 := fun other present entered =>
    advance_of_inside entered (guarded.served other present) state.mutex (stuck.advance present)
  have free : state.mutex = false := by
    by_contra held
    have some_ : 0 < tally inside state.threads := by
      rw [guarded.counted, weight, if_pos (Bool.not_eq_false _ ▸ held)]
      exact Nat.one_pos
    obtain ⟨holder, present, positive⟩ := exists_pos_of_tally some_
    have most := le_tally inside present
    have weighs : weight state.mutex ≤ 1 := weight_le_one state.mutex
    rw [guarded.counted] at most
    exact outside holder present (by omega)
  have blocked := stuck.advance found
  have out := outside thread found
  obtain ⟨todo, place, results⟩ := thread
  rw [free] at blocked
  cases place with
  | idle =>
    cases todo with
    | nil => exact .inl ⟨rfl, rfl⟩
    | cons operation todo => cases operation <;> cases blocked
  | asleep => exact .inr rfl
  | pushing | notifying | popping | woken => cases blocked
  | storing | stored | checking | taking | leaving => exact absurd rfl out

private theorem received_le {thread : Thread α} (resting : thread.Finished ∨ thread.place = .asleep) :
    (received thread).length + sleeping thread ≤ thread.results.length + toPop thread := by
  obtain ⟨todo, place, results⟩ := thread
  have got : results.reduceOption.length ≤ results.length := List.reduceOption_length_le results
  obtain ⟨-, rfl⟩ | rfl := resting
  · exact Nat.le_trans got (Nat.le_add_right _ _)
  · simp only [received, sleeping, toPop]
    omega

private theorem alert_of_resting {thread : Thread α} (resting : thread.Finished ∨ thread.place = .asleep) : alert thread = 0 := by
  obtain ⟨todo, place, results⟩ := thread
  obtain ⟨-, rfl⟩ | rfl := resting
  · rfl
  · rfl

theorem Guarded.empty_of_stuck (guarded : Guarded programs state) (attended : Attended state) (stuck : Stuck state) :
    tally sleeping state.threads = 0 ∨ state.data_queue = [] := by
  obtain none | enough := attended
  · exact .inl none
  · have nobody : tally alert state.threads = 0 := by
      refine List.sum_eq_zero fun amount counted => ?_
      obtain ⟨thread, present, rfl⟩ := List.mem_map.mp counted
      exact alert_of_resting (guarded.resting_of_stuck stuck present)
    rw [nobody] at enough
    exact .inr (List.length_eq_zero_iff.mp (Nat.le_zero.mp enough))

theorem Guarded.finished_of_stuck (guarded : Guarded programs state) (stuck : Stuck state)
    (nobody : tally sleeping state.threads = 0) : state.Finished := by
  intro thread present
  obtain finished | asleep := guarded.resting_of_stuck stuck present
  · exact finished
  · obtain ⟨index, found⟩ := List.getElem?_of_mem present
    exact absurd nobody (sleeping_pos found asleep).ne'

/-- A program that only pushes, or only pops. -/
def OneSided (program : List (Operation α)) : Prop := pushes program = [] ∨ pops program = 0

private theorem Guarded.toPush_of_stuck (guarded : Guarded programs state) (sided : ∀ program ∈ programs, OneSided program)
    (stuck : Stuck state) {thread : Thread α} (present : thread ∈ state.threads) : toPush thread = [] := by
  obtain ⟨index, found⟩ := List.getElem?_of_mem present
  obtain ⟨program, given, follows⟩ := guarded.follows index thread found
  obtain ⟨done, idle⟩ | asleep := guarded.resting_of_stuck stuck present
  · rw [toPush, idle, done]
    rfl
  · obtain silent | never := sided program (List.mem_of_getElem? given)
    · exact (List.append_eq_nil_iff.mp (follows.pushes.trans silent)).2
    · have pops := follows.pops
      simp only [never, toPop, asleep] at pops
      omega

private theorem Guarded.awake_of_stuck (guarded : Guarded programs state) (attended : Attended state)
    (sided : ∀ program ∈ programs, OneSided program)
    (enough : (programs.map pops).sum ≤ (programs.map fun program => (pushes program).length).sum) (stuck : Stuck state) :
    tally sleeping state.threads = 0 := by
  obtain nobody | empty := guarded.empty_of_stuck attended stuck
  · exact nobody
  · have pushed : tally (fun thread => (toPush thread).length) state.threads = 0 := by
      refine List.sum_eq_zero fun amount counted => ?_
      obtain ⟨thread, present, rfl⟩ := List.mem_map.mp counted
      rw [guarded.toPush_of_stuck sided stuck present]
      rfl
    have popped : state.pushed.length = state.popped.length := by
      have ordered := congrArg List.length guarded.ordered
      rw [empty, List.append_nil, List.length_map, List.length_map] at ordered
      exact ordered
    have returned : tally (fun thread => (received thread).length + sleeping thread) state.threads ≤
        tally (fun thread => thread.results.length + toPop thread) state.threads :=
      tally_le fun thread present => received_le (guarded.resting_of_stuck stuck present)
    have pushTotal := guarded.pushTotal
    have gotTotal := guarded.gotTotal
    have popTotal := guarded.popTotal
    rw [tally_add] at returned
    omega

/-- The steps of the threads of which nobody wakes up on its own. -/
def proceed (state : State α) (turns : List (Nat × Nat)) : Option (State α) :=
  turns.foldlM (fun state turn => state.step (.advance turn.1 turn.2)) state

theorem Guarded.continued (guarded : Guarded programs state) (attended : Attended state) {turns : List (Nat × Nat)}
    {final : State α} (ran : proceed state turns = some final) : Guarded programs final ∧ Attended final := by
  induction turns generalizing state with
  | nil => exact Option.some.inj ran ▸ ⟨guarded, attended⟩
  | cons turn rest ih =>
    obtain ⟨next, moved, rest⟩ := Option.bind_eq_some_iff.mp ran
    exact ih (guarded.step moved) (guarded.attended attended moved) rest

/-- Without any timeout, from wherever the threads have got to: they can only take
so many more steps; when none is left, a thread that has not finished sleeps, and
only while the queue is empty; and where each thread only pushes or only pops, and
there are no more pops than pushes, all have finished. -/
theorem threads_settle (programs : List (List (Operation α))) (turns : List Turn) (more : List (Nat × Nat)) (final : State α)
    (ran : proceed ((State.start programs).run turns) more = some final) :
    more.length ≤ stepsLeft ((State.start programs).run turns) ∧
    (Stuck final → (∀ thread ∈ final.threads, thread.Finished ∨ thread.place = .asleep) ∧
      (final.data_queue ≠ [] → final.Finished) ∧
      ((∀ program ∈ programs, OneSided program) →
        (programs.map pops).sum ≤ (programs.map fun program => (pushes program).length).sum → final.Finished)) := by
  obtain ⟨guarded, attended⟩ := run_guarded programs turns
  obtain ⟨kept, still⟩ := guarded.continued attended ran
  refine ⟨guarded.bounded ran, fun stuck => ⟨fun thread => kept.resting_of_stuck stuck, fun value => ?_, fun sided enough => ?_⟩⟩
  · exact kept.finished_of_stuck stuck ((kept.empty_of_stuck still stuck).resolve_right value)
  · exact kept.finished_of_stuck stuck (kept.awake_of_stuck still sided enough stuck)

/-- A push and a pop after both have returned, where the pop slept until the push. -/
def delivered : State Nat where
  threads := [{ todo := [] }, { todo := [], results := [some 7] }]
  pushed := [(0, 7)]
  popped := [(1, 7)]

theorem threads_settle_sleeper : delivered.Finished := by
  have sided : ∀ program ∈ ([[.push 7], [.pop]] : List (List (Operation Nat))), OneSided program := by
    intro program present
    obtain rfl | rfl := List.mem_pair.mp present
    · exact .inr rfl
    · exact .inl rfl
  obtain ⟨-, settled⟩ := threads_settle [[.push 7], [.pop]] [.advance 1 0, .advance 1 0, .advance 1 0]
    [(0, 0), (0, 0), (0, 0), (0, 0), (0, 1), (1, 0), (1, 0), (1, 0), (1, 0)] delivered (by decide)
  refine (settled fun index _ => ?_).2.2 sided (Nat.le_refl 1)
  match index with
  | 0 => rfl
  | 1 => rfl
  | _ + 2 => rfl

end FinanceTech.Proofs.BlockingQueues
