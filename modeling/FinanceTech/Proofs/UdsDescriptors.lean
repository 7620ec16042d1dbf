import FinanceTech.UdsLoop
import FinanceTech.Library.Runs
import Mathlib.Data.List.Perm.Basic

/-! What the event loop does with its descriptors. It fills the slots of its array one
by one and never frees one, so after as many clients as the array has room for, closed
ones included, the next one is written behind it. -/

namespace FinanceTech.Proofs.UdsDescriptors
open List Library Servers EventLoop

variable {σ : Type} {service : Service σ} {serverSocket : Socket} {clients : List Socket} {loop next : EventLoop σ}

/-- The clients that a run has accepted. -/
def accepted {size : Nat} (steps : List (LoopStep size)) : List Socket :=
  steps.filterMap fun
    | .accept (.accepted clientSocket _) => some clientSocket
    | _ => none

/-- What `recv` returned in a run. -/
def received {size : Nat} (steps : List (LoopStep size)) : List (ReadResult size) :=
  steps.filterMap fun
    | .recv result => some result
    | _ => none

def valid (sockets : List Socket) : List Socket := sockets.filter (· ≠ INVALID_HANDLE)

/-- The descriptors in the slots, as far as they are counted. -/
def descriptors (loop : EventLoop σ) : List Socket := (loop.fds.map (·.fd)).take loop.handlesCount

/-- Every socket is in one slot or was closed once. -/
structure Accounted (serverSocket : Socket) (clients : List Socket) (loop : EventLoop σ) : Prop where
  slots : loop.fds.length = MAX_DESCRIPTORS
  count : loop.handlesCount = clients.length + 1
  room : loop.handlesCount ≤ MAX_DESCRIPTORS
  owned : valid (descriptors loop) ++ valid loop.closed ~ serverSocket :: clients

private theorem ne_invalid {clientSocket : Socket} (fresh : 0 ≤ clientSocket) : clientSocket ≠ INVALID_HANDLE := by
  rintro rfl
  revert fresh
  decide

private theorem valid_append (first second : List Socket) : valid (first ++ second) = valid first ++ valid second :=
  filter_append ..

/-- Closing moves a descriptor from its slot to the closed ones. -/
private theorem valid_close {sockets : List Socket} {idx : Nat} {fd : Socket} (found : sockets[idx]? = some fd) :
    valid (sockets.set idx INVALID_HANDLE) ++ valid [fd] ~ valid sockets := by
  have swapped := (getD_set_perm_cons sockets idx INVALID_HANDLE).filter (· ≠ INVALID_HANDLE)
  rw [found, Option.getD_some] at swapped
  have left : valid (fd :: sockets.set idx INVALID_HANDLE) = valid [fd] ++ valid (sockets.set idx INVALID_HANDLE) :=
    valid_append [fd] _
  have right : valid (INVALID_HANDLE :: sockets) = valid sockets := filter_cons_of_neg (by decide)
  exact perm_append_comm.trans ((Perm.of_eq left.symm).trans (swapped.trans (Perm.of_eq right)))

private theorem polled_fd (loop : EventLoop σ) (revents : Nat → UInt16) :
    (loop.polled revents).map (·.fd) = loop.fds.map (·.fd) := by
  refine ext_getElem? fun idx => ?_
  rw [getElem?_map, getElem?_map, polled, getElem?_mapIdx, Option.map_map]
  refine congrArg (fun change => Option.map change loop.fds[idx]?) (funext fun pollEvent => ?_)
  dsimp only [Function.comp_apply]
  split <;> rfl

namespace Accounted

theorem construct (serves : serverSocket ≠ INVALID_HANDLE) (data : σ) :
    Accounted serverSocket [] (construct serverSocket data) := by
  refine ⟨congrArg (· + 1) length_replicate, rfl, ?_, ?_⟩
  · change 1 ≤ 256
    decide
  · have single : valid (descriptors (EventLoop.construct serverSocket data)) = [serverSocket] :=
      filter_cons_of_pos (decide_eq_true serves)
    rw [single]
    exact Perm.refl _

theorem polled (accounted : Accounted serverSocket clients loop) (revents : Nat → UInt16) (place : LoopAt) :
    Accounted serverSocket clients { loop with fds := loop.polled revents, place } := by
  refine ⟨?_, accounted.count, accounted.room, ?_⟩
  · rw [← accounted.slots]
    exact length_mapIdx
  · have same : descriptors { loop with fds := loop.polled revents, place } = descriptors loop :=
      congrArg (List.take loop.handlesCount) (polled_fd loop revents)
    rw [same]
    exact accounted.owned

theorem closeEvent (accounted : Accounted serverSocket clients loop) {idx : Nat} (inside : idx < loop.handlesCount) :
    Accounted serverSocket clients (loop.closeEvent idx) := by
  have bounded : idx < loop.fds.length := by
    rw [accounted.slots]
    exact inside.trans_le accounted.room
  rw [EventLoop.closeEvent, getElem?_eq_getElem bounded]
  refine ⟨?_, accounted.count, accounted.room, ?_⟩
  · rw [← accounted.slots]
    exact length_set
  · have found : (descriptors loop)[idx]? = some loop.fds[idx].fd := by
      rw [descriptors, getElem?_take_of_lt inside, getElem?_map, getElem?_eq_getElem bounded]
      rfl
    have closed : descriptors { loop with fds := loop.fds.set idx { loop.fds[idx] with fd := INVALID_HANDLE } } =
        (descriptors loop).set idx INVALID_HANDLE := by
      rw [descriptors, descriptors, map_set, take_set]
    rw [valid_append, ← append_assoc]
    refine Perm.trans ?_ accounted.owned
    have moved := (valid_close found).append_right (valid loop.closed)
    rw [append_assoc] at moved ⊢
    refine Perm.trans ?_ moved
    exact (Perm.of_eq (congrArg valid closed)).append perm_append_comm

theorem accept (accounted : Accounted serverSocket clients loop) {clientSocket : Socket} (fresh : 0 ≤ clientSocket)
    {pollEvent : PollFd} (found : loop.fds[loop.handlesCount]? = some pollEvent) (place : LoopAt) :
    Accounted serverSocket (clients ++ [clientSocket]) { loop with
      fds := loop.fds.set loop.handlesCount { pollEvent with fd := clientSocket }
      handlesCount := loop.handlesCount + 1
      place } := by
  have bounded := (List.getElem?_eq_some_iff.mp found).1
  refine ⟨?_, ?_, ?_, ?_⟩
  · rw [← accounted.slots]
    exact length_set
  · dsimp only
    rw [accounted.count, length_append]
    rfl
  · rw [accounted.slots] at bounded
    exact bounded
  · have filled : descriptors { loop with
        fds := loop.fds.set loop.handlesCount { pollEvent with fd := clientSocket }
        handlesCount := loop.handlesCount + 1
        place } = descriptors loop ++ [clientSocket] := by
      have counted : loop.handlesCount < (loop.fds.map (·.fd)).length := by rwa [length_map]
      rw [descriptors, descriptors, map_set, take_add_one, getElem?_set_self counted, take_set_of_le (Nat.le_refl _)]
      rfl
    have valid_one : valid [clientSocket] = [clientSocket] := filter_cons_of_pos (decide_eq_true (ne_invalid fresh))
    rw [filled, valid_append, valid_one, append_assoc]
    have owned := accounted.owned.append_right [clientSocket]
    rw [append_assoc] at owned
    exact (perm_append_comm.append_left _).trans owned

end Accounted

/-- From this slot on nothing is reported of a descriptor that was closed. -/
def Quiet (loop : EventLoop σ) (idx : Nat) : Prop :=
  ∀ place pollEvent, idx ≤ place → place < loop.handlesCount → loop.fds[place]? = some pollEvent →
    pollEvent.fd = INVALID_HANDLE → pollEvent.revents = 0

/-- The loop is at a slot that it counted. Where an error ends it, the slots ahead are
as `poll` left them, and the one that it reads from is open. -/
def Standing (service : Service σ) (loop : EventLoop σ) : Prop :=
  match loop.place with
  | .polling | .returned => True
  | .scanning idx currentSize => currentSize ≤ loop.handlesCount ∧ (service.stops = true → Quiet loop idx)
  | .accepting idx currentSize =>
    idx < currentSize ∧ currentSize ≤ loop.handlesCount ∧ (service.stops = true → Quiet loop (idx + 1))
  | .reading idx currentSize => idx < currentSize ∧ currentSize ≤ loop.handlesCount ∧
    (service.stops = true → Quiet loop (idx + 1) ∧ ∃ pollEvent, loop.fds[idx]? = some pollEvent ∧ pollEvent.fd ≠ INVALID_HANDLE)

theorem Quiet.later {idx later : Nat} (quiet : Quiet loop idx) (behind : idx ≤ later) : Quiet loop later :=
  fun place pollEvent ahead => quiet place pollEvent (behind.trans ahead)

private theorem polled_quiet (loop : EventLoop σ) (revents : Nat → UInt16) (place : LoopAt) :
    Quiet { loop with fds := loop.polled revents, place } 0 := by
  intro slot pollEvent _ counted found closed
  dsimp only at counted found
  rw [polled, getElem?_mapIdx, Option.map_eq_some_iff] at found
  obtain ⟨before, -, rfl⟩ := found
  rw [if_pos counted] at closed ⊢
  dsimp only at closed ⊢
  rw [closed]
  rfl

/-- A slot that is written leaves those behind it as they are. -/
private theorem set_quiet {idx : Nat} (quiet : Quiet loop (idx + 1)) (pollEvent : PollFd) :
    Quiet { loop with fds := loop.fds.set idx pollEvent } (idx + 1) := by
  intro slot other ahead counted found closed
  have apart : idx ≠ slot := by omega
  rw [getElem?_set_ne apart] at found
  exact quiet slot other ahead counted found closed

private theorem closeEvent_quiet {idx : Nat} (quiet : Quiet loop (idx + 1)) : Quiet (loop.closeEvent idx) (idx + 1) := by
  unfold closeEvent
  cases loop.fds[idx]? with
  | none => exact quiet
  | some pollEvent => exact set_quiet quiet _

@[simp] theorem closeEvent_handlesCount (loop : EventLoop σ) (idx : Nat) :
    (loop.closeEvent idx).handlesCount = loop.handlesCount := by
  unfold closeEvent
  split <;> rfl

@[simp] theorem closeEvent_data (loop : EventLoop σ) (idx : Nat) : (loop.closeEvent idx).data = loop.data := by
  unfold closeEvent
  split <;> rfl

private theorem accept_quiet {idx : Nat} (quiet : Quiet loop idx) {clientSocket : Socket}
    (opened : clientSocket ≠ INVALID_HANDLE) (pollEvent : PollFd) (place : LoopAt) : Quiet { loop with
      fds := loop.fds.set loop.handlesCount { pollEvent with fd := clientSocket }
      handlesCount := loop.handlesCount + 1
      place } idx := by
  intro slot other ahead counted found shut
  dsimp only at counted found
  by_cases same : loop.handlesCount = slot
  · cases same
    rw [List.getElem?_set_self'] at found
    obtain ⟨_, _, rfl⟩ := Option.map_eq_some_iff.mp found
    exact absurd shut opened
  · rw [getElem?_set_ne same] at found
    exact quiet slot other ahead (by omega) found shut

/-- What every run keeps. -/
structure Kept (service : Service σ) (serverSocket : Socket) (clients : List Socket) (loop : EventLoop σ) : Prop where
  accounted : Accounted serverSocket clients loop
  standing : Standing service loop
  genuine : service.stops = true → INVALID_HANDLE ∉ loop.closed

namespace Kept

private theorem at_place (kept : Kept service serverSocket clients loop) (data : σ) {place : LoopAt}
    (standing : Standing service { loop with data, place }) : Kept service serverSocket clients { loop with data, place } :=
  ⟨⟨kept.accounted.slots, kept.accounted.count, kept.accounted.room, kept.accounted.owned⟩, standing, kept.genuine⟩

private theorem failure (kept : Kept service serverSocket clients loop) (data : σ) {otherwise : LoopAt}
    (standing : service.stops = false → Standing service { loop with data, place := otherwise }) :
    Kept service serverSocket clients { loop.failure service otherwise with data } := by
  unfold EventLoop.failure
  cases stops : service.stops with
  | true => exact kept.at_place data trivial
  | false => exact kept.at_place data (standing stops)

private theorem polled (kept : Kept service serverSocket clients loop) (revents : Nat → UInt16) {place : LoopAt}
    (ahead : place = .returned ∨ place = .scanning 0 loop.handlesCount) :
    Kept service serverSocket clients { loop with fds := loop.polled revents, place } := by
  refine ⟨kept.accounted.polled revents _, ?_, kept.genuine⟩
  rcases ahead with rfl | rfl
  · trivial
  · exact ⟨Nat.le_refl _, fun _ => polled_quiet loop revents _⟩

private theorem closeEvent (kept : Kept service serverSocket clients loop) {idx : Nat} {pollEvent : PollFd}
    (inside : idx < loop.handlesCount) (found : loop.fds[idx]? = some pollEvent)
    (opened : service.stops = true → pollEvent.fd ≠ INVALID_HANDLE) (data : σ) {place : LoopAt}
    (standing : Standing service { loop.closeEvent idx with data, place }) :
    Kept service serverSocket clients { loop.closeEvent idx with data, place } := by
  have accounted := kept.accounted.closeEvent inside
  refine ⟨⟨accounted.slots, accounted.count, accounted.room, accounted.owned⟩, standing, fun stops => ?_⟩
  dsimp only
  unfold EventLoop.closeEvent
  rw [found]
  intro among
  rcases mem_append.mp among with before | last
  · exact kept.genuine stops before
  · exact opened stops (mem_singleton.mp last).symm

private theorem scan (kept : Kept service serverSocket clients loop) {idx currentSize : Nat}
    (place : loop.place = .scanning idx currentSize) (stepped : loop.step service .turn = some next) :
    Kept service serverSocket clients next := by
  have standing := kept.standing
  rw [Standing, place] at standing
  obtain ⟨counted, quiet⟩ := standing
  have later (stops : service.stops = true) : Quiet loop (idx + 1) := (quiet stops).later (Nat.le_succ idx)
  unfold EventLoop.step at stepped
  simp only [place] at stepped
  split at stepped
  case isFalse =>
    cases stepped
    exact kept.at_place loop.data trivial
  case isTrue inside =>
    cases found : loop.fds[idx]? with
    | none =>
      rw [found] at stepped
      cases stepped
    | some pollEvent =>
      simp only [found, Option.bind_eq_bind, Option.bind_some, Option.pure_def] at stepped
      have opened (stops : service.stops = true) (reported : pollEvent.revents ≠ 0) : pollEvent.fd ≠ INVALID_HANDLE :=
        mt (quiet stops idx pollEvent (Nat.le_refl _) (inside.trans_le counted) found) reported
      by_cases silent : pollEvent.revents = 0
      · rw [if_pos silent] at stepped
        cases stepped
        exact kept.at_place loop.data ⟨counted, later⟩
      · rw [if_neg silent] at stepped
        by_cases readable : pollEvent.revents ≠ POLLIN
        · rw [if_pos readable] at stepped
          by_cases hungUp : pollEvent.revents &&& POLLHUP ≠ 0
          · rw [if_pos hungUp] at stepped
            cases stepped
            exact kept.closeEvent (inside.trans_le counted) found (fun stops => opened stops silent) _ trivial
          · rw [if_neg hungUp] at stepped
            cases stepped
            exact kept.at_place loop.data ⟨counted, later⟩
        · rw [if_neg readable] at stepped
          by_cases listening : pollEvent.fd = loop.serverSocket
          · rw [if_pos listening] at stepped
            cases stepped
            exact kept.at_place loop.data ⟨inside, counted, later⟩
          · rw [if_neg listening] at stepped
            cases stepped
            exact kept.at_place loop.data ⟨inside, counted, fun stops => ⟨later stops, pollEvent, found, opened stops silent⟩⟩

theorem accept (kept : Kept service serverSocket clients loop) {idx currentSize : Nat}
    (place : loop.place = .accepting idx currentSize) {result : AcceptResult}
    (stepped : loop.step service (.accept result) = some next) :
    Kept service serverSocket (clients ++ accepted ([.accept result] : List (LoopStep service.bufferSize))) next := by
  have standing := kept.standing
  rw [Standing, place] at standing
  obtain ⟨-, counted, quiet⟩ := standing
  unfold EventLoop.step at stepped
  simp only [place] at stepped
  cases result with
  | wouldBlock =>
    cases stepped
    exact (append_nil clients).symm ▸ kept.at_place loop.data ⟨counted, quiet⟩
  | failed =>
    cases stepped
    exact (append_nil clients).symm ▸ kept.failure loop.data fun _ => ⟨counted, quiet⟩
  | accepted clientSocket fresh =>
    obtain ⟨pollEvent, found, filled⟩ := Option.bind_eq_some_iff.mp stepped
    cases filled
    refine ⟨kept.accounted.accept fresh found _, ⟨counted.trans (Nat.le_succ _), fun stops => ?_⟩, kept.genuine⟩
    exact accept_quiet (quiet stops) (ne_invalid fresh) _ _

theorem recv (kept : Kept service serverSocket clients loop) {idx currentSize : Nat}
    (place : loop.place = .reading idx currentSize) {result : ReadResult service.bufferSize}
    (stepped : loop.step service (.recv result) = some next) :
    Kept service serverSocket clients next := by
  have standing := kept.standing
  rw [Standing, place] at standing
  obtain ⟨inside, counted, slots⟩ := standing
  have bounded : idx < loop.fds.length := by
    rw [kept.accounted.slots]
    exact (inside.trans_le counted).trans_le kept.accounted.room
  unfold EventLoop.step at stepped
  simp only [place] at stepped
  cases received : service.receive loop.data result with
  | none =>
    rw [received] at stepped
    cases stepped
  | some data =>
    rw [received] at stepped
    cases result with
    | wouldBlock =>
      cases stepped
      exact kept.at_place data ⟨counted, fun stops => (slots stops).1⟩
    | failed =>
      cases stepped
      exact kept.failure data fun _ => ⟨counted, fun stops => (slots stops).1⟩
    | closed =>
      cases stepped
      refine kept.closeEvent (inside.trans_le counted) (getElem?_eq_getElem bounded) (fun stops => ?_) data ⟨?_, fun stops => ?_⟩
      · obtain ⟨-, pollEvent, found, opened⟩ := slots stops
        rw [getElem?_eq_getElem bounded, Option.some_inj] at found
        rwa [found]
      · exact counted.trans (Nat.le_of_eq (closeEvent_handlesCount loop idx).symm)
      · exact closeEvent_quiet (slots stops).1
    | chunk bytes fits =>
      cases stepped
      exact kept.at_place data ⟨inside, counted, slots⟩

theorem poll (kept : Kept service serverSocket clients loop) (place : loop.place = .polling) {result : PollResult}
    (stepped : loop.step service (.poll result) = some next) : Kept service serverSocket clients next := by
  unfold EventLoop.step at stepped
  simp only [place] at stepped
  cases result with
  | failed =>
    cases stepped
    refine kept.failure loop.data fun stops => ⟨Nat.le_refl _, fun other => ?_⟩
    rw [stops] at other
    cases other
  | timeout =>
    cases stepped
    apply kept.polled
    split
    · exact .inl rfl
    · exact .inr rfl
  | ready revents =>
    cases stepped
    exact kept.polled revents (.inr rfl)

theorem step (kept : Kept service serverSocket clients loop) {event : LoopStep service.bufferSize}
    (stepped : loop.step service event = some next) : Kept service serverSocket (clients ++ accepted [event]) next := by
  have same : clients = clients ++ [] := (append_nil clients).symm
  cases event with
  | poll result =>
    cases place : loop.place with
    | polling => exact same ▸ kept.poll place stepped
    | _ => simp [EventLoop.step, place] at stepped
  | turn =>
    cases place : loop.place with
    | scanning idx currentSize => exact same ▸ kept.scan place stepped
    | _ => simp [EventLoop.step, place] at stepped
  | accept result =>
    cases place : loop.place with
    | accepting idx currentSize => exact kept.accept place stepped
    | _ => simp [EventLoop.step, place] at stepped
  | recv result =>
    cases place : loop.place with
    | reading idx currentSize => exact same ▸ kept.recv place stepped
    | _ => simp [EventLoop.step, place] at stepped

end Kept

def Takes (service : Service σ) (loop : EventLoop σ) : LoopStep service.bufferSize → Prop
  | .poll _ => loop.place = .polling
  | .turn => ∃ idx currentSize, loop.place = .scanning idx currentSize
  | .accept _ => ∃ idx currentSize, loop.place = .accepting idx currentSize
  | .recv result => (∃ idx currentSize, loop.place = .reading idx currentSize) ∧ (service.receive loop.data result).isSome

/-- A step hands what `recv` returned to the service, and nothing else. -/
theorem step_data {event : LoopStep service.bufferSize} (stepped : loop.step service event = some next) :
    (received [event]).foldlM service.receive loop.data = some next.data := by
  unfold EventLoop.step at stepped
  cases event with
  | poll result =>
    refine congrArg some ?_
    cases place : loop.place with
    | polling =>
      simp only [place] at stepped
      cases result with
      | _ =>
        cases stepped
        rfl
    | _ => simp [place] at stepped
  | turn =>
    refine congrArg some ?_
    cases place : loop.place with
    | scanning idx currentSize =>
      simp only [place] at stepped
      split at stepped
      case isTrue =>
        obtain ⟨pollEvent, found, moved⟩ := Option.bind_eq_some_iff.mp stepped
        repeat' split at moved
        all_goals
          cases moved
          simp only [closeEvent_data]
      case isFalse =>
        cases stepped
        rfl
    | _ => simp [place] at stepped
  | accept result =>
    refine congrArg some ?_
    cases place : loop.place with
    | accepting idx currentSize =>
      simp only [place] at stepped
      cases result with
      | accepted clientSocket fresh =>
        obtain ⟨pollEvent, found, moved⟩ := Option.bind_eq_some_iff.mp stepped
        cases moved
        rfl
      | _ =>
        cases stepped
        rfl
    | _ => simp [place] at stepped
  | recv result =>
    cases place : loop.place with
    | reading idx currentSize =>
      simp only [place] at stepped
      obtain ⟨data, taken, moved⟩ := Option.bind_eq_some_iff.mp stepped
      have same : data = next.data := by
        cases result with
        | _ =>
          cases moved
          rfl
      rw [← same]
      exact (congrArg (· >>= pure) taken).trans (Option.bind_some _ _)
    | _ => simp [place] at stepped

/-- What a run has done with the sockets and with what it received, and which step is
its last one. -/
structure Served (service : Service σ) (serverSocket : Socket) (data : σ) (steps : List (LoopStep service.bufferSize))
    (loop : EventLoop σ) : Prop where
  accounted : Accounted serverSocket (accepted steps) loop
  genuine : service.stops = true → INVALID_HANDLE ∉ loop.closed ∧ ∀ idx currentSize, loop.place = .reading idx currentSize →
    ∃ pollEvent, loop.fds[idx]? = some pollEvent ∧ pollEvent.fd ≠ INVALID_HANDLE
  data : (received steps).foldlM service.receive data = some loop.data
  stuck : ∀ event, Takes service loop event → (loop.step service event = none ↔
    (accepted steps).length + 1 = MAX_DESCRIPTORS ∧ ∃ clientSocket fresh, event = .accept (.accepted clientSocket fresh))

section Run

variable {data : σ} {steps : List (LoopStep service.bufferSize)}

theorem run_received (ran : (construct serverSocket data).run service steps = some loop) :
    (received steps).foldlM service.receive data = some loop.data := by
  refine @Runs.foldlM_records _ _ _ _ (fun before loop => (received before).foldlM service.receive data = some loop.data)
    steps loop (fun before event middle next _ collected stepped => ?_) rfl ran
  rw [received, filterMap_append, foldlM_append]
  exact (congrArg (· >>= _) collected).trans (step_data stepped)

end Run

section Bytes

variable {size : Nat}

def chunks : ReadResult size → List Strings.Text
  | .chunk bytes _ => [bytes]
  | _ => []

def bytes : ReadResult size → Strings.Text
  | .chunk bytes _ => bytes
  | _ => []

def turned : ReadResult BUFFER_SIZE.toNat → RecvResult
  | .wouldBlock | .failed => .failed
  | .closed => .closed
  | .chunk bytes fits => .chunk bytes fits

/-- What every `recv` adds at the end is there after all of them, of all clients and in
the order of the reads. -/
private theorem received_content {α : Type} {receive : σ → ReadResult size → Option σ} (measure : σ → List α)
    (content : ReadResult size → List α)
    (adds : ∀ data result next, receive data result = some next → measure next = measure data ++ content result)
    {results : List (ReadResult size)} {data final : σ} (collected : results.foldlM receive data = some final) :
    measure final = measure data ++ results.flatMap content := by
  refine @Runs.foldlM_records _ _ _ _ (fun before state => measure state = measure data ++ before.flatMap content) results final
    (fun before result middle next _ held taken => ?_) (append_nil _).symm collected
  rw [adds _ _ _ taken, held, flatMap_append, append_assoc, flatMap_singleton]

private theorem receive_adds (server : Gateway.UDS.UDSAsynchServer) (result : ReadResult Gateway.UDS.BUFFER_SIZE) :
    (server.receive result).events.flatten ++ (server.receive result).message =
      server.events.flatten ++ server.message ++ bytes result := by
  cases result with
  | chunk chunk fits =>
    rw [Gateway.UDS.UDSAsynchServer.receive]
    split
    · rw [flatten_concat, append_nil, append_assoc]
      rfl
    · rw [append_assoc]
      rfl
  | _ => exact (append_nil _).symm

theorem start_collects {loop : EventLoop Gateway.UDS.UDSAsynchServer} {steps : List (LoopStep Gateway.UDS.BUFFER_SIZE)}
    (ran : (construct serverSocket {}).run Gateway.UDS.start steps = some loop) :
    loop.data.events.flatten ++ loop.data.message = (received steps).flatMap bytes := by
  refine received_content (fun server => server.events.flatten ++ server.message) bytes (fun server result next taken => ?_)
    (run_received ran)
  cases taken
  exact receive_adds server result

theorem consumer_prints {loop : EventLoop (List Strings.Text)} {steps : List (LoopStep Gateway.UDS.BUFFER_SIZE)}
    (ran : (construct serverSocket []).run UnixDomainSocketConsumer.start steps = some loop) :
    loop.data = (received steps).flatMap chunks := by
  refine received_content id chunks (fun printed result next taken => ?_) (run_received ran)
  cases result with
  | chunk bytes fits =>
    cases taken
    rfl
  | _ =>
    cases taken
    exact (append_nil _).symm

theorem run_grows {state : σ} {handle : σ → Strings.Text → σ × Strings.Text}
    (leaves : ∀ state buff, (handle state buff).2 = buff) {loop : EventLoop (σ × Strings.Text)}
    {steps : List (LoopStep Gateway.UDS.BUFFER_SIZE)}
    (ran : (construct serverSocket (state, [])).run (Gateway.UDS.run handle) steps = some loop) :
    loop.data.2 = (received steps).flatMap bytes := by
  refine received_content Prod.snd bytes (fun server result next taken => ?_) (run_received ran)
  cases result with
  | chunk bytes fits =>
    cases taken
    split
    · exact leaves _ _
    · rfl
  | _ =>
    cases taken
    exact (append_nil _).symm

theorem run_turns {loop : EventLoop Server} {server : Server} {steps : List (LoopStep BUFFER_SIZE.toNat)}
    (ran : (construct serverSocket server).run Servers.run steps = some loop) :
    ((received steps).map turned).foldlM turn server = some loop.data := by
  have same : Servers.run.receive = fun server result => turn server (turned result) := by
    funext server result
    cases result <;> rfl
  rw [foldlM_map, ← same]
  exact run_received ran

end Bytes
end FinanceTech.Proofs.UdsDescriptors
