import FinanceTech.Library.Slots
import Mathlib.Data.Nat.Init
import Mathlib.Data.UInt

/-! The two rings that put over their oldest item when they are full: the one of
the low latency logger, whose indices wrap when they are used next, and the one
of `RingBufferEx`, whose indices wrap at once. An access outside the vector has
no result, and what a move leaves in a slot is up to the type of the items. -/

namespace FinanceTech
open Library

universe u

/-! ### The ring of the logger -/

namespace LowLatencyLogger

structure RingBuffer (T : Type u) where
  idxRead : Nat := 0
  idxWrite : Nat := 0
  overflow : Bool := false
  buffer : List T
deriving DecidableEq, Repr

namespace RingBuffer

variable {T : Type u}

def new [Inhabited T] (size : Nat) : RingBuffer T := { buffer := List.replicate size default }

def put (ring : RingBuffer T) (value : T) : Option (RingBuffer T) := do
  let ring := if ring.idxWrite = ring.buffer.length then { ring with idxWrite := 0, overflow := true } else ring
  let ring := if ring.overflow ∧ ring.idxWrite = ring.idxRead then { ring with idxRead := ring.idxRead + 1 } else ring
  let buffer ← Slots.store ring.buffer ring.idxWrite value
  some { ring with buffer, idxWrite := ring.idxWrite + 1 }

/-- The value that is read, or nothing when the result is `false`. -/
def get (moved : T → T) (ring : RingBuffer T) : Option (RingBuffer T × Option T) :=
  if !ring.overflow ∧ ring.idxWrite = ring.idxRead then some (ring, none)
  else do
    let ring := if ring.idxRead = ring.buffer.length then { ring with idxRead := 0, overflow := false } else ring
    let value ← ring.buffer[ring.idxRead]?
    let buffer ← Slots.store ring.buffer ring.idxRead (moved value)
    some ({ ring with buffer, idxRead := ring.idxRead + 1 }, some value)

/-- Where a `put` is, behind its first access to the ring. -/
inductive Put (T : Type u) where
  | resetWrite (value : T)
  | setOverflow (value : T)
  | loadOverflow (value : T)
  | loadWrite (value : T)
  | loadRead (value : T) (idxWrite : Nat)
  | advanceRead (value : T)
  | advanceWrite (value : T)
  | store (value : T) (index : Nat)
deriving DecidableEq, Repr

/-- A `put` begins with a load of the write index. -/
def Put.start (ring : RingBuffer T) (value : T) : Put T :=
  if ring.idxWrite = ring.buffer.length then .resetWrite value else .loadOverflow value

/-- The next access of a `put`, which is over behind the last one. -/
def putStep (ring : RingBuffer T) : Put T → Option (RingBuffer T × Option (Put T))
  | .resetWrite value => some ({ ring with idxWrite := 0 }, some (.setOverflow value))
  | .setOverflow value => some ({ ring with overflow := true }, some (.loadOverflow value))
  | .loadOverflow value => some (ring, some (if ring.overflow then .loadWrite value else .advanceWrite value))
  | .loadWrite value => some (ring, some (.loadRead value ring.idxWrite))
  | .loadRead value idxWrite => some (ring, some (if idxWrite = ring.idxRead then .advanceRead value else .advanceWrite value))
  | .advanceRead value => some ({ ring with idxRead := ring.idxRead + 1 }, some (.advanceWrite value))
  | .advanceWrite value => some ({ ring with idxWrite := ring.idxWrite + 1 }, some (.store value ring.idxWrite))
  | .store value index => do
    let buffer ← Slots.store ring.buffer index value
    some ({ ring with buffer }, none)

/-- Where a `get` is, behind its first access to the ring. -/
inductive Get where
  | loadWrite
  | loadRead (idxWrite : Nat)
  | loadEnd
  | resetRead
  | clearOverflow
  | advanceRead
  | move (index : Nat)
deriving DecidableEq, Repr

/-- A `get` begins with a load of the flag. -/
def Get.start (ring : RingBuffer T) : Get := if ring.overflow then .loadEnd else .loadWrite

/-- The next access of a `get`, with the result behind the last one. -/
def getStep (moved : T → T) (ring : RingBuffer T) : Get → Option (RingBuffer T × (Get ⊕ Option T))
  | .loadWrite => some (ring, .inl (.loadRead ring.idxWrite))
  | .loadRead idxWrite => some (ring, if idxWrite = ring.idxRead then .inr none else .inl .loadEnd)
  | .loadEnd => some (ring, .inl (if ring.idxRead = ring.buffer.length then .resetRead else .advanceRead))
  | .resetRead => some ({ ring with idxRead := 0 }, .inl .clearOverflow)
  | .clearOverflow => some ({ ring with overflow := false }, .inl .advanceRead)
  | .advanceRead => some ({ ring with idxRead := ring.idxRead + 1 }, .inl (.move ring.idxRead))
  | .move index => do
    let value ← ring.buffer[index]?
    let buffer ← Slots.store ring.buffer index (moved value)
    some ({ ring with buffer }, .inr (some value))

end RingBuffer
end LowLatencyLogger

/-! ### The ring with the flag for full -/

namespace RingBufferEx

/-- `size_type`, which is `int_fast32_t`. -/
abbrev SizeType := Int64

def fastModulo (n d : UInt32) : UInt32 := n &&& (d - 1)

def isPowOf2 (value : Int32) : Bool := value ≠ 0 ∧ value &&& (value - 1) = 0

/-- A `size_t` that is a power of two and passes the assertion of the template,
which looks at it as an `int`. -/
structure Capacity where
  value : UInt64
  power : value.toNat.isPowerOfTwo
  asserted : isPowOf2 value.toUInt32.toInt32 = true

/-- `fast_modulo(index, Capacity)`, with the conversions to `uint32_t` and back. -/
def Capacity.modulo (capacity : Capacity) (index : SizeType) : SizeType :=
  (fastModulo index.toUInt64.toUInt32 capacity.value.toUInt32).toUInt64.toInt64

structure RingBuffer (T : Type u) where
  buffer : List T
  idxWrite : SizeType := 0
  idxRead : SizeType := 0
  full : Bool := false
deriving DecidableEq

namespace RingBuffer

variable {T : Type u}

def new [Inhabited T] (capacity : Capacity) : RingBuffer T := { buffer := List.replicate capacity.value.toNat default }

/-- An index as the subscript of a vector. -/
def subscript (index : SizeType) : Nat := index.toUInt64.toNat

def empty (ring : RingBuffer T) : Bool := !ring.full ∧ ring.idxWrite = ring.idxRead

def isFull (ring : RingBuffer T) : Bool := ring.full

def put (capacity : Capacity) (ring : RingBuffer T) (value : T) : Option (RingBuffer T) := do
  let buffer ← Slots.store ring.buffer (subscript ring.idxWrite) value
  let idxRead := if ring.full then capacity.modulo (ring.idxRead + 1) else ring.idxRead
  let idxWrite := capacity.modulo (ring.idxWrite + 1)
  some { buffer, idxWrite, idxRead, full := idxWrite = idxRead }

/-- The value that is read, or nothing when the result is `false`. -/
def get (capacity : Capacity) (moved : T → T) (ring : RingBuffer T) : Option (RingBuffer T × Option T) :=
  if ring.empty then some (ring, none)
  else do
    let value ← ring.buffer[subscript ring.idxRead]?
    let buffer ← Slots.store ring.buffer (subscript ring.idxRead) (moved value)
    some ({ ring with buffer, full := false, idxRead := capacity.modulo (ring.idxRead + 1) }, some value)

end RingBuffer
end RingBufferEx
end FinanceTech
