import FinanceTech.Strings

/-! The growing byte buffer of the feed. It is reallocated to powers of two; memory
that was never written holds no value. -/

namespace FinanceTech.Buffers

open Strings

structure Buffer where
  capacity : UInt32 := 0
  size : UInt32 := 0
  data : Option (List (Option UInt8)) := none
deriving DecidableEq, Repr

/-- `make_unique_for_overwrite` -/
def uninitialized (count : Nat) : List (Option UInt8) := List.replicate count none

/-- `std::countl_zero` -/
def countlZero (value : UInt32) : Nat := if value = 0 then 32 else 31 - value.toNat.log2

namespace Buffer

def ofCapacity (initialCapacity : UInt32) : Buffer :=
  { capacity := initialCapacity, size := 0, data := some (uninitialized initialCapacity.toNat) }

/-- A shift by the whole width has no value. -/
def roundUpToPow2 (value : UInt32) : Option UInt32 :=
  let shift := 32 - countlZero (value - 1)
  if shift < 32 then some (UInt32.ofNat (2 ^ shift)) else none

/-- The bytes copied are read from the old memory, if there is any, and have to fit both. -/
def relocate (this : Buffer) (newData : List (Option UInt8)) : Option (List (Option UInt8)) :=
  match this.data with
  | .some data => if this.size.toNat ≤ data.length then copyTo newData 0 (data.take this.size.toNat) else none
  | .none => some newData

def ensureCapacity (this : Buffer) (newCapacity : UInt32) : Option Buffer := do
  let newCapacity ← roundUpToPow2 newCapacity
  let newData ← this.relocate (uninitialized newCapacity.toNat)
  return { this with data := some newData, capacity := newCapacity }

def pushBack (this : Buffer) (c : UInt8) : Option Buffer := do
  let this ← this.ensureCapacity (this.size + 1)
  let data ← this.data
  let data ← copyTo data this.size.toNat [some c]
  return { this with data := some data, size := this.size + 1 }

def append (this : Buffer) (str : Text) : Option Buffer := do
  let len := UInt32.ofNat str.length
  let this ← this.ensureCapacity (this.size + len)
  let data ← this.data
  let data ← copyTo data this.size.toNat (str.map some)
  return { this with data := some data, size := this.size + len }

def validateCapacity (this : Buffer) (n : UInt32) : Option Buffer :=
  if this.capacity - this.size ≥ n then some this else this.ensureCapacity (this.capacity + n)

/-- The pointer returned is that of the first byte behind the content. -/
def tail (this : Buffer) (n : UInt32) : Option Buffer := this.validateCapacity n

/-- Bytes written at the tail by the caller. -/
def writeTail (this : Buffer) (bytes : Text) : Option Buffer :=
  match this.data with
  | .some data => do
    let data ← copyTo data this.size.toNat (bytes.map some)
    return { this with data := some data }
  | .none => if bytes = [] then some this else none

def incrementLength (this : Buffer) (incrSize : UInt32) : Buffer := { this with size := this.size + incrSize }

def clear (this : Buffer) : Buffer := { this with size := 0 }

/-- How much memory there is behind the content. -/
def free (this : Buffer) : Nat := (this.data.elim 0 List.length) - this.size.toNat

end Buffer

/-- What a caller does with a buffer. A tail asked for is filled in part or in whole. -/
inductive Operation where
  | pushBack (c : UInt8)
  | append (str : Text)
  | fill (n : UInt32) (bytes : Text) (inside : bytes.length ≤ n.toNat)
  | clear

/-- A buffer and the room that its last tail had. -/
structure Client where
  buffer : Buffer
  room : Nat := 0

def step (client : Client) : Operation → Option Client
  | .pushBack c => do
    let buffer ← client.buffer.pushBack c
    return { client with buffer }
  | .append str => do
    let buffer ← client.buffer.append str
    return { client with buffer }
  | .fill n bytes _ => do
    let buffer ← client.buffer.tail n
    let room := buffer.free
    let buffer ← buffer.writeTail bytes
    return { buffer := buffer.incrementLength (UInt32.ofNat bytes.length), room }
  | .clear => some { client with buffer := client.buffer.clear }

end FinanceTech.Buffers
