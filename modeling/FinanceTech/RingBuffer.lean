import FinanceTech.Library.RingWindow

/-! The two ring buffers between one producer and one consumer. Every atomic
operation on an index and every use of a slot is a step of its own, and a turn
gives the next step to one of the two threads, so that a list of turns is an
interleaving of any number of calls. An access outside the vector fails. -/

namespace FinanceTech.RingBuffers

def fastModulo (n d : UInt32) : UInt32 := n &&& (d - 1)

def isPowOf2 (value : UInt32) : Bool := value ≠ 0 ∧ value &&& (value - 1) = 0

/-- The capacity of a ring, with the assertion that the template makes. -/
structure Capacity where
  value : UInt32
  power : isPowOf2 value = true

theorem Capacity.powerOfTwo (capacity : Capacity) : Library.RingWindow.PowerOfTwo capacity.value := by
  have power := capacity.power
  unfold isPowOf2 at power
  exact of_decide_eq_true power

/-- The number of slots. -/
def Capacity.slots (capacity : Capacity) : Nat := capacity.value.toNat

/-! ### The ring that moves items in and out -/

namespace Basic

universe u

structure RingBuffer (T : Type u) where
  buffer : List T
  tail : UInt32 := 0
  head : UInt32 := 0

namespace RingBuffer

def size {T : Type u} (ring : RingBuffer T) : UInt32 := ring.head - ring.tail

def full {T : Type u} (capacity : Capacity) (ring : RingBuffer T) : Bool := ring.size = capacity.value

end RingBuffer

/-- Where the producer is in `put`, with the locals of the call. -/
inductive Put (T : Type u) where
  | outside
  | loadTail (item : T) (headCurrent headNext : UInt32)
  | write (item : T) (headCurrent headNext : UInt32)
  | storeHead (item : T) (headCurrent headNext : UInt32)

/-- Where the consumer is in `pop`. -/
inductive Pop (T : Type u) where
  | outside
  | loadHead (tailCurrent : UInt32)
  | read (tailCurrent : UInt32)
  | storeTail (item : T) (tailCurrent : UInt32)

/-- The ring and its two threads, with what the calls that returned true have
put, each item with the slot it went to, and popped. -/
structure System (T : Type u) where
  ring : RingBuffer T
  put : Put T := .outside
  pop : Pop T := .outside
  accepted : List (T × UInt32) := []
  popped : List T := []

inductive Turn (T : Type u) where
  | producer (item : T)
  | consumer

variable {T : Type u} (capacity : Capacity)

namespace System

def initial [Inhabited T] : System T := { ring := { buffer := List.replicate capacity.value.toNat default } }

/-- The next step of `put`; the item is that of the call that begins. -/
def producer (system : System T) (item : T) : Option (System T) :=
  match system.put with
  | .outside =>
    let headCurrent := system.ring.head
    let headNext := fastModulo (headCurrent + 1) capacity.value
    some { system with put := .loadTail item headCurrent headNext }
  | .loadTail item headCurrent headNext =>
    if headNext = system.ring.tail then some { system with put := .outside }
    else some { system with put := .write item headCurrent headNext }
  | .write item headCurrent headNext =>
    if headCurrent.toNat < system.ring.buffer.length then
      let ring := { system.ring with buffer := system.ring.buffer.set headCurrent.toNat item }
      some { system with ring, put := .storeHead item headCurrent headNext }
    else none
  | .storeHead item headCurrent headNext =>
    let ring := { system.ring with head := headNext }
    some { system with ring, put := .outside, accepted := system.accepted ++ [(item, headCurrent)] }

/-- The next step of `pop`. What a move leaves in a slot is up to the type of
the items; for a copy it is the item. -/
def consumer (moved : T → T) (system : System T) : Option (System T) :=
  match system.pop with
  | .outside => some { system with pop := .loadHead system.ring.tail }
  | .loadHead tailCurrent =>
    if tailCurrent = system.ring.head then some { system with pop := .outside }
    else some { system with pop := .read tailCurrent }
  | .read tailCurrent =>
    match system.ring.buffer[tailCurrent.toNat]? with
    | none => none
    | some item =>
      let ring := { system.ring with buffer := system.ring.buffer.set tailCurrent.toNat (moved item) }
      some { system with ring, pop := .storeTail item tailCurrent }
  | .storeTail item tailCurrent =>
    let ring := { system.ring with tail := fastModulo (tailCurrent + 1) capacity.value }
    some { system with ring, pop := .outside, popped := system.popped ++ [item] }

def step (moved : T → T) (system : System T) : Turn T → Option (System T)
  | .producer item => system.producer capacity item
  | .consumer => system.consumer capacity moved

end System
end Basic

/-! ### The ring that hands out its slots -/

namespace TwoPhasePush

/-- The characters of a buffer, up to its size. -/
abbrev Buffer := List UInt8

structure RingBuffer where
  headCached : UInt32 := 0
  headNext : UInt32 := 0
  buffer : List Buffer
  tail : UInt32 := 0
  head : UInt32 := 0

namespace RingBuffer

def size (ring : RingBuffer) : UInt32 := ring.head - ring.tail

def full (capacity : Capacity) (ring : RingBuffer) : Bool := ring.size = capacity.value

end RingBuffer

/-- Where the producer is: in `getItem`, or filling the slot it has got. -/
inductive Producer where
  | outside
  | loadTail
  | filling (item : UInt32)

/-- Where the consumer is: in `pop`, or with the slot it has got, which it reads
and then clears. -/
inductive Consumer where
  | outside
  | loadHead (tailLocal : UInt32)
  | storeTail (tailLocal : UInt32)
  | reading (item : UInt32)
  | clearing (item : UInt32)

/-- The ring and its two threads, with the messages committed and read, and the
slot that `pop` returned last. -/
structure System where
  ring : RingBuffer
  producer : Producer := .outside
  consumer : Consumer := .outside
  committed : List Buffer := []
  messages : List Buffer := []
  held : Option UInt32 := none

/-- A producer with a slot appends some characters to it, or commits it. -/
inductive Turn where
  | append (characters : Buffer)
  | commit
  | consumer

variable (capacity : Capacity)

namespace System

def initial : System := { ring := { buffer := List.replicate capacity.value.toNat [] } }

/-- The next step of `getItem`. -/
def getItem (system : System) : System :=
  match system.producer with
  | .outside =>
    let headCached := system.ring.head
    let headNext := fastModulo (headCached + 1) capacity.value
    { system with ring := { system.ring with headCached, headNext }, producer := .loadTail }
  | .loadTail =>
    if system.ring.headNext = system.ring.tail then { system with producer := .outside }
    else { system with producer := .filling system.ring.headCached }
  | .filling _ => system

def commit (system : System) (item : UInt32) : Option System :=
  match system.ring.buffer[item.toNat]? with
  | none => none
  | some message =>
    let ring := { system.ring with head := system.ring.headNext }
    some { system with ring, producer := .outside, committed := system.committed ++ [message] }

def append (system : System) (item : UInt32) (characters : Buffer) : Option System :=
  match system.ring.buffer[item.toNat]? with
  | none => none
  | some message =>
    let ring := { system.ring with buffer := system.ring.buffer.set item.toNat (message ++ characters) }
    some { system with ring }

/-- The next step of `pop`, or of what the consumer does with its slot. -/
def pop (system : System) : Option System :=
  match system.consumer with
  | .outside => some { system with consumer := .loadHead system.ring.tail }
  | .loadHead tailLocal =>
    if tailLocal = system.ring.head then some { system with consumer := .outside }
    else some { system with consumer := .storeTail tailLocal }
  | .storeTail tailLocal =>
    let ring := { system.ring with tail := fastModulo (tailLocal + 1) capacity.value }
    some { system with ring, consumer := .reading tailLocal, held := some tailLocal }
  | .reading item =>
    match system.ring.buffer[item.toNat]? with
    | none => none
    | some message => some { system with consumer := .clearing item, messages := system.messages ++ [message] }
  | .clearing item =>
    if item.toNat < system.ring.buffer.length then
      let ring := { system.ring with buffer := system.ring.buffer.set item.toNat [] }
      some { system with ring, consumer := .outside }
    else none

def step (system : System) : Turn → Option System
  | .append characters =>
    match system.producer with
    | .filling item => system.append item characters
    | _ => some (system.getItem capacity)
  | .commit =>
    match system.producer with
    | .filling item => system.commit item
    | _ => some (system.getItem capacity)
  | .consumer => system.pop capacity

end System
end TwoPhasePush

/-! ### The ring that copies items out and back -/

namespace WithCommit

universe u

structure RingBuffer (T : Type u) where
  headCached : UInt32 := 0
  headNext : UInt32 := 0
  buffer : List T
  tail : UInt32 := 0
  head : UInt32 := 0

/-- Where the producer is: in `getItem`, with the copy it has got, or in `commit`. -/
inductive Producer (T : Type u) where
  | outside
  | loadTail
  | copy
  | holding (item : T)
  | write (item : T)
  | storeHead (item : T)

/-- The ring and its two threads, with the items committed, each with the slot it went
to, and popped. -/
structure System (T : Type u) where
  ring : RingBuffer T
  producer : Producer T := .outside
  pop : Basic.Pop T := .outside
  committed : List (T × UInt32) := []
  popped : List T := []

/-- A producer with a copy changes it, or commits it. -/
inductive Turn (T : Type u) where
  | modify (change : T → T)
  | commit
  | consumer

variable {T : Type u} (capacity : Capacity)

namespace System

def initial [Inhabited T] : System T := { ring := { buffer := List.replicate capacity.value.toNat default } }

/-- The next step of `getItem`, or of `commit` once it has begun. -/
def produce (system : System T) : Option (System T) :=
  match system.producer with
  | .outside =>
    let headCached := system.ring.head
    let headNext := fastModulo (headCached + 1) capacity.value
    some { system with ring := { system.ring with headCached, headNext }, producer := .loadTail }
  | .loadTail =>
    if system.ring.headNext = system.ring.tail then some { system with producer := .outside }
    else some { system with producer := .copy }
  | .copy =>
    match system.ring.buffer[system.ring.headCached.toNat]? with
    | none => none
    | some item => some { system with producer := .holding item }
  | .holding _ => some system
  | .write item =>
    if system.ring.headCached.toNat < system.ring.buffer.length then
      let ring := { system.ring with buffer := system.ring.buffer.set system.ring.headCached.toNat item }
      some { system with ring, producer := .storeHead item }
    else none
  | .storeHead item =>
    let ring := { system.ring with head := system.ring.headNext }
    some { system with ring, producer := .outside, committed := system.committed ++ [(item, system.ring.headCached)] }

/-- The next step of `pop`, which copies the item. -/
def consume (system : System T) : Option (System T) :=
  match system.pop with
  | .outside => some { system with pop := .loadHead system.ring.tail }
  | .loadHead tailLocal =>
    if tailLocal = system.ring.head then some { system with pop := .outside }
    else some { system with pop := .read tailLocal }
  | .read tailLocal =>
    match system.ring.buffer[tailLocal.toNat]? with
    | none => none
    | some item => some { system with pop := .storeTail item tailLocal }
  | .storeTail item tailLocal =>
    let ring := { system.ring with tail := fastModulo (tailLocal + 1) capacity.value }
    some { system with ring, pop := .outside, popped := system.popped ++ [item] }

def step (system : System T) : Turn T → Option (System T)
  | .modify change =>
    match system.producer with
    | .holding item => some { system with producer := .holding (change item) }
    | _ => system.produce capacity
  | .commit =>
    match system.producer with
    | .holding item => some { system with producer := .write item }
    | _ => system.produce capacity
  | .consumer => system.consume capacity

end System
end WithCommit
end FinanceTech.RingBuffers
