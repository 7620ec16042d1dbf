import FinanceTech.Library.WholeFloat
import Mathlib.Algebra.Ring.Nat

/-! A pool of objects: memory is taken from the allocator a chunk at a time, each
four times as large as the one before, and handed out slot by slot. -/

namespace FinanceTech.Memory

/-- A slot: the block it lies in, counted in the order the blocks were allocated, and its place there. -/
structure Pointer where
  block : Nat
  offset : Nat
deriving DecidableEq, Repr

def DEFAULT_CHUNK_SIZE : UInt64 := 10

def GROWTH_STRATEGY : UInt64 := 4

structure ObjectPool where
  pool : List Pointer := []
  available : List Pointer := []
  newBlockSize : UInt64 := DEFAULT_CHUNK_SIZE
  capacity : UInt64 := 0
deriving DecidableEq, Repr

/-- The pool among what it deals with: the sizes of the blocks the allocator gave
it, and the objects whose owners have not let go of them. -/
structure System where
  objects : ObjectPool := {}
  blocks : List Nat := []
  outstanding : List Pointer := []
deriving DecidableEq, Repr

/-- What happens to a pool. An allocator may refuse memory and a constructor may throw. -/
inductive Event where
  | acquire (granted constructed : Bool)
  | release (position : Nat)
deriving DecidableEq, Repr

/-- The longest array of objects of this size there can be. -/
def maxObjects (objectSize : Nat) : Nat := (2 ^ 63 - 1) / objectSize

variable (objectSize : Nat)

/-- A block no other shares a slot with, or an exception. -/
def allocate (granted : Bool) (blocks : List Nat) (count : Nat) : Option (Pointer × List Nat) :=
  if granted ∧ count ≤ maxObjects objectSize then some (⟨blocks.length, 0⟩, blocks ++ [count]) else none

def iota (start : Pointer) (count : Nat) : List Pointer :=
  (List.range count).map (fun offset => { start with offset := start.offset + offset })

/-- The new slots take the place of the list there was. -/
def addChunk (granted : Bool) (system : System) : Option System := do
  let (newBlock, blocks) ← allocate objectSize granted system.blocks system.objects.newBlockSize.toNat
  return { system with
    blocks
    objects := {
      pool := system.objects.pool ++ [newBlock]
      available := iota newBlock system.objects.newBlockSize.toNat
      capacity := system.objects.capacity + system.objects.newBlockSize
      newBlockSize := system.objects.newBlockSize * GROWTH_STRATEGY } }

/-- The second half of `acquireObject`. The slot leaves the list only once its object is
constructed; the last of an empty list is no slot. -/
def construct (constructed : Bool) (system : System) : Option (System × Option Pointer) := do
  let objectPtr ← system.objects.available.getLast?
  if constructed then
    return ({ system with objects := { system.objects with available := system.objects.available.dropLast } }, some objectPtr)
  else
    return (system, none)

/-- An exception leaves the pool as it then is and hands out nothing. -/
def acquireObject (granted constructed : Bool) (system : System) : Option (System × Option Pointer) :=
  if system.objects.available.isEmpty then
    match addChunk objectSize granted system with
    | .none => some (system, none)
    | .some system => construct constructed system
  else
    construct constructed system

/-- `Deleter`: the object is destroyed and its slot goes to the end of the list. -/
def giveBack (pool : ObjectPool) (object : Pointer) : ObjectPool := { pool with available := pool.available ++ [object] }

def step (system : System) : Event → Option System
  | .acquire granted constructed => do
    let (system, acquired) ← acquireObject objectSize granted constructed system
    return { system with outstanding := system.outstanding ++ acquired.toList }
  | .release position =>
    match system.outstanding[position]? with
    | .none => some system
    | .some object =>
      some { system with outstanding := system.outstanding.eraseIdx position, objects := giveBack system.objects object }

/-! ### The destructor -/

/-- A size in double precision. -/
def double : Nat → Nat := Library.WholeFloat.round 53

/-- What the assertion compares the number of available objects with. `pow` is exact, as its result is a
double while there are fewer than 1024 chunks; no allocator gives as many. -/
def assertedSize (chunks : Nat) : Nat := double (double DEFAULT_CHUNK_SIZE.toNat * double (2 ^ chunks - 1))

def allReturned (pool : ObjectPool) : Bool := double pool.available.length = assertedSize pool.pool.length

/-- One turn of the loop: the calls of `deallocate` so far and `chunkSize`. -/
def freeChunk (loop : List (Pointer × UInt64) × UInt64) (chunk : Pointer) : List (Pointer × UInt64) × UInt64 :=
  (loop.1 ++ [(chunk, loop.2)], loop.2 * GROWTH_STRATEGY)

def deallocations (pool : ObjectPool) : List (Pointer × UInt64) :=
  (pool.pool.foldl freeChunk ([], DEFAULT_CHUNK_SIZE)).1

/-- A failed assertion ends the program. -/
def destroy (pool : ObjectPool) : Option (List (Pointer × UInt64)) :=
  if allReturned pool then some (deallocations pool) else none

end FinanceTech.Memory
