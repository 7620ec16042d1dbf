import FinanceTech.Strings
import FinanceTech.UdsServer
import Mathlib.Data.UInt

/-! The event loop of the servers over a Unix domain socket. The four servers of the
repository poll one array of descriptors, accept into its next slot and read from
the clients that are readable; they differ in what an error or a timeout does and in
what becomes of the bytes. What the system calls return is given with each step. -/

namespace FinanceTech.Servers
open Strings

abbrev Socket := Int32

def INVALID_HANDLE : Socket := -1

def MAX_DESCRIPTORS : Nat := 256

def POLLIN : UInt16 := 1

def POLLHUP : UInt16 := 16

/-- A `pollfd`. The events it asks for are read by the system alone. -/
structure PollFd where
  fd : Socket := 0
  revents : UInt16 := 0
deriving DecidableEq, Repr

inductive PollResult where
  | failed
  | timeout
  | ready (revents : Nat → UInt16)

inductive AcceptResult where
  | wouldBlock
  | failed
  | accepted (socket : Socket) (valid : 0 ≤ socket)

/-- What `recv` returns for a buffer of this size. -/
inductive ReadResult (size : Nat) where
  | wouldBlock
  | failed
  | closed
  | chunk (bytes : Text) (fits : 0 < bytes.length ∧ bytes.length ≤ size)

/-- Where the loop stands: before `poll`, in the loop over the descriptors that were
counted before it, or in one of the loops inside. -/
inductive LoopAt where
  | polling
  | scanning (idx currentSize : Nat)
  | accepting (idx currentSize : Nat)
  | reading (idx currentSize : Nat)
  | returned
deriving DecidableEq, Repr

/-- What the servers do differently: whether an error or a timeout ends the loop, and
what `recv` makes of what is collected. -/
structure Service (σ : Type) where
  bufferSize : Nat
  stops : Bool
  stopsIdle : Bool
  receive : σ → ReadResult bufferSize → Option σ

/-- `closed` is what `close` was called with. -/
structure EventLoop (σ : Type) where
  serverSocket : Socket
  fds : List PollFd
  handlesCount : Nat := 1
  place : LoopAt := .polling
  closed : List Socket := []
  data : σ

inductive LoopStep (size : Nat) where
  | poll (result : PollResult)
  | turn
  | accept (result : AcceptResult)
  | recv (result : ReadResult size)

namespace EventLoop

variable {σ : Type}

/-- The constructor. The other slots are zero. -/
def construct (serverSocket : Socket) (data : σ) : EventLoop σ where
  serverSocket
  fds := { fd := serverSocket } :: List.replicate (MAX_DESCRIPTORS - 1) {}
  data

/-- What `poll` writes: a descriptor below zero is passed over. -/
def polled (loop : EventLoop σ) (revents : Nat → UInt16) : List PollFd :=
  loop.fds.mapIdx fun idx pollEvent =>
    if idx < loop.handlesCount then { pollEvent with revents := if pollEvent.fd < 0 then 0 else revents idx } else pollEvent

def closeEvent (loop : EventLoop σ) (idx : Nat) : EventLoop σ :=
  match loop.fds[idx]? with
  | none => loop
  | some pollEvent => { loop with
      fds := loop.fds.set idx { pollEvent with fd := INVALID_HANDLE }, closed := loop.closed ++ [pollEvent.fd] }

/-- An error that is not `EWOULDBLOCK`. -/
def failure (service : Service σ) (loop : EventLoop σ) (otherwise : LoopAt) : EventLoop σ :=
  { loop with place := if service.stops then .returned else otherwise }

/-- A step that the loop does not take where it stands has no result, and neither
has an access outside the array. -/
def step (service : Service σ) (loop : EventLoop σ) (event : LoopStep service.bufferSize) : Option (EventLoop σ) :=
  match loop.place, event with
  | .polling, .poll .failed => some (loop.failure service (.scanning 0 loop.handlesCount))
  | .polling, .poll .timeout => some { loop with
      fds := loop.polled fun _ => 0, place := if service.stopsIdle then .returned else .scanning 0 loop.handlesCount }
  | .polling, .poll (.ready revents) =>
    some { loop with fds := loop.polled revents, place := .scanning 0 loop.handlesCount }
  | .scanning idx currentSize, .turn =>
    if idx < currentSize then do
      let pollEvent ← loop.fds[idx]?
      if pollEvent.revents = 0 then return { loop with place := .scanning (idx + 1) currentSize }
      else if pollEvent.revents ≠ POLLIN then
        if pollEvent.revents &&& POLLHUP ≠ 0 then return { loop.closeEvent idx with place := .polling }
        else return { loop with place := .scanning (idx + 1) currentSize }
      else if pollEvent.fd = loop.serverSocket then return { loop with place := .accepting idx currentSize }
      else return { loop with place := .reading idx currentSize }
    else some { loop with place := .polling }
  | .accepting idx currentSize, .accept .wouldBlock => some { loop with place := .scanning (idx + 1) currentSize }
  | .accepting idx currentSize, .accept .failed => some (loop.failure service (.scanning (idx + 1) currentSize))
  | .accepting idx currentSize, .accept (.accepted clientSocket _) => do
    let pollEvent ← loop.fds[loop.handlesCount]?
    return { loop with
      fds := loop.fds.set loop.handlesCount { pollEvent with fd := clientSocket }
      handlesCount := loop.handlesCount + 1
      place := .scanning (idx + 1) currentSize }
  | .reading idx currentSize, .recv result => do
    let data ← service.receive loop.data result
    match result with
    | .wouldBlock => return { loop with data, place := .scanning (idx + 1) currentSize }
    | .failed => return { loop.failure service (.scanning (idx + 1) currentSize) with data }
    | .closed => return { loop.closeEvent idx with data, place := .scanning (idx + 1) currentSize }
    | .chunk .. => return { loop with data }
  | _, _ => none

def run (service : Service σ) (loop : EventLoop σ) (steps : List (LoopStep service.bufferSize)) : Option (EventLoop σ) :=
  steps.foldlM (step service) loop

end EventLoop
end FinanceTech.Servers

namespace FinanceTech.Gateway.UDS
open Strings Servers

def BUFFER_SIZE : Nat := 10 * 1024

/-- The message that `start` collects, which all clients share, and the events it has
pushed. -/
structure UDSAsynchServer where
  message : Text := []
  events : List Text := []
deriving DecidableEq, Repr

/-- The message is empty once it was moved into the queue. What a client that closes
has left of it stays. -/
def UDSAsynchServer.receive (server : UDSAsynchServer) : ReadResult BUFFER_SIZE → UDSAsynchServer
  | .chunk bytes _ =>
    let message := server.message ++ bytes
    if BUFFER_SIZE > bytes.length then { message := [], events := server.events ++ [message] }
    else { server with message }
  | _ => server

def start : Service UDSAsynchServer where
  bufferSize := BUFFER_SIZE
  stops := true
  stopsIdle := false
  receive server result := some (server.receive result)

/-- `UDSServer::run`: the service of the user is given all that was collected, and
leaves of it what it wants. -/
def run {σ : Type} (handle : σ → Text → σ × Text) : Service (σ × Text) where
  bufferSize := BUFFER_SIZE
  stops := false
  stopsIdle := false
  receive server
    | .chunk bytes _ =>
      let buff := server.2 ++ bytes
      some (if BUFFER_SIZE > bytes.length then handle server.1 buff else (server.1, buff))
    | _ => some server

end FinanceTech.Gateway.UDS

namespace FinanceTech.UnixDomainSocketConsumer
open Strings Servers

/-- The consumer prints every chunk, and a timeout ends it too. -/
def start : Service (List Text) where
  bufferSize := Gateway.UDS.BUFFER_SIZE
  stops := true
  stopsIdle := true
  receive printed
    | .chunk bytes _ => some (printed ++ [bytes])
    | _ => some printed

end FinanceTech.UnixDomainSocketConsumer

namespace FinanceTech.Servers

/-- `UdsServerAsynch::run`, each `recv` of which is a turn of its read loop. -/
def run : Service Server where
  bufferSize := BUFFER_SIZE.toNat
  stops := false
  stopsIdle := false
  receive server
    | .wouldBlock | .failed => turn server .failed
    | .closed => turn server .closed
    | .chunk bytes fits => turn server (.chunk bytes fits)

end FinanceTech.Servers
