import FinanceTech.RingBuffer
import FinanceTech.ByteBuffer

/-! The feed: messages are pushed into the slots of a ring of byte buffers, and a
worker pops, parses and clears them. Every atomic operation on an index and every
use of a slot is a step of its own. -/

namespace FinanceTech.PriceEngine

open RingBuffers Strings Buffers
open RingBuffers.TwoPhasePush (Consumer)

structure RingBuffer where
  headCached : UInt32 := 0
  headNext : UInt32 := 0
  buffer : List Buffer
  tail : UInt32 := 0
  head : UInt32 := 0

/-- Where `push` is: in `getItem`, with the slot it has got, or about to commit it. -/
inductive Push where
  | outside
  | loadTail (eventData : Text)
  | write (eventData : Text) (response : UInt32)
  | commit (eventData : Text) (response : UInt32)

/-- The queue and its two threads, with the messages whose push returned, what their
slots held when they were committed, and what the worker was given. -/
structure Processor where
  queue : RingBuffer
  push : Push := .outside
  worker : Consumer := .outside
  pushed : List Text := []
  enqueued : List Text := []
  messages : List Text := []

inductive Turn where
  | push (eventData : Text)
  | worker

variable (capacity : Capacity)

namespace Processor

def initial : Processor := { queue := { buffer := List.replicate capacity.value.toNat {} } }

/-- What a slot holds; a byte that was never written cannot be read. -/
def content (slot : Buffer) : Option Text :=
  if slot.size.toNat ≤ (slot.data.getD []).length then ((slot.data.getD []).take slot.size.toNat).mapM id else none

/-- The message is written at the tail of the slot and its length added. -/
def fill (slot : Buffer) (eventData : Text) : Option Buffer := do
  let bytes := UInt32.ofNat eventData.length
  let slot ← slot.tail bytes
  let slot ← slot.writeTail eventData
  return slot.incrementLength bytes

/-- The next step of `push`. Where the ring is full `getItem` returns no slot, and it is
written through all the same. -/
def pushStep (system : Processor) (eventData : Text) : Option Processor :=
  match system.push with
  | .outside =>
    let headCached := system.queue.head
    let headNext := fastModulo (headCached + 1) capacity.value
    some { system with queue := { system.queue with headCached, headNext }, push := .loadTail eventData }
  | .loadTail eventData =>
    if system.queue.headNext = system.queue.tail then none
    else some { system with push := .write eventData system.queue.headCached }
  | .write eventData response => do
    let slot ← system.queue.buffer[response.toNat]?
    let slot ← fill slot eventData
    let queue := { system.queue with buffer := system.queue.buffer.set response.toNat slot }
    return { system with queue, push := .commit eventData response }
  | .commit eventData response => do
    let slot ← system.queue.buffer[response.toNat]?
    let message ← content slot
    let queue := { system.queue with head := system.queue.headNext }
    return { system with queue, push := .outside, pushed := system.pushed ++ [eventData], enqueued := system.enqueued ++ [message] }

/-- The next step of `pop`, or of what the worker does with its slot. -/
def workerStep (system : Processor) : Option Processor :=
  match system.worker with
  | .outside => some { system with worker := .loadHead system.queue.tail }
  | .loadHead tailLocal =>
    if tailLocal = system.queue.head then some { system with worker := .outside }
    else some { system with worker := .storeTail tailLocal }
  | .storeTail tailLocal =>
    let queue := { system.queue with tail := fastModulo (tailLocal + 1) capacity.value }
    some { system with queue, worker := .reading tailLocal }
  | .reading item => do
    let slot ← system.queue.buffer[item.toNat]?
    let message ← content slot
    return { system with worker := .clearing item, messages := system.messages ++ [message] }
  | .clearing item => do
    let slot ← system.queue.buffer[item.toNat]?
    let queue := { system.queue with buffer := system.queue.buffer.set item.toNat slot.clear }
    return { system with queue, worker := .outside }

/-- A message is taken by `push` only when the one before has returned. -/
def step (system : Processor) : Turn → Option Processor
  | .push eventData => system.pushStep capacity eventData
  | .worker => system.workerStep capacity

end Processor
end FinanceTech.PriceEngine
