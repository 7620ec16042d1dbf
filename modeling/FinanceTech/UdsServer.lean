import FinanceTech.Strings

/-! The read loop of the server: what it receives from a socket is collected in a
buffer and given to the service once a chunk comes that does not fill the read. -/

namespace FinanceTech.Servers

open Strings

structure Buffer where
  buffer : List UInt8 := List.replicate 1024 0
  length : UInt32 := 0
deriving DecidableEq, Repr

namespace Buffer

def validateCapacity (this : Buffer) (size : UInt32) : Buffer :=
  if this.buffer.length ≥ (this.length + size).toNat then this
  else { this with buffer := resize this.buffer (this.length + size).toNat }

def incrementLength (this : Buffer) (size : UInt32) : Buffer := { this with length := this.length + size }

def reset (this : Buffer) : Buffer := { this with length := 0 }

/-- The bytes a service sees, `data()` and `size()`. -/
def content (this : Buffer) : Option Text := view this.buffer 0 this.length.toNat

end Buffer

def BUFFER_SIZE : UInt32 := 2 * 1024

/-- What `recv` returns. -/
inductive RecvResult where
  | failed
  | closed
  | chunk (bytes : Text) (size : 0 < bytes.length ∧ bytes.length ≤ BUFFER_SIZE.toNat)

/-- The server, with what its service was given so far. -/
structure Server where
  buffer : Buffer := {}
  processed : List Text := []
deriving DecidableEq, Repr

def process (server : Server) : Option Server := do
  let message ← server.buffer.content
  return { server with processed := server.processed ++ [message] }

/-- One turn of the loop. The bytes are received at `data()`. A failure leaves the
loop; the next turn is the first after the socket is readable again. -/
def turn (server : Server) (result : RecvResult) : Option Server :=
  let buffer := server.buffer.validateCapacity BUFFER_SIZE
  match result with
  | .failed => some { server with buffer }
  | .closed => some { server with buffer := buffer.reset }
  | .chunk bytes _ => do
    let received ← copyTo buffer.buffer 0 bytes
    let buffer := { buffer with buffer := received }.incrementLength (UInt32.ofNat bytes.length)
    if BUFFER_SIZE.toNat > bytes.length then
      let server ← process { server with buffer }
      return { server with buffer := server.buffer.reset }
    else
      return { server with buffer }

end FinanceTech.Servers
