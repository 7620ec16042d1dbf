/-! The metric registry and the threads around it. Every access to a slot is one
atomic step of its own, so a call that records a value takes several steps, and
so do the two passes of the exporter. The steps of all threads interleave in any
order. -/

namespace FinanceTech.Metrics

inductive MetricType where
  | none | counter | gauge | histogram
deriving DecidableEq, Repr

def MaxMetrics : Nat := 256

def InitialMinValue : UInt64 := 18446744073709551615

structure MetricSlot where
  value : UInt64 := 0
  sum : UInt64 := 0
  count : UInt64 := 0
  min : UInt64 := InitialMinValue
  max : UInt64 := 0
deriving DecidableEq, Repr

/-- `slot` is a `MetricSlot*`, as the place of the slot in the registry. -/
structure MetricHandle where
  index : UInt16 := 0
  type : MetricType := .counter
  slot : Option Nat := none
deriving DecidableEq, Repr

def MetricHandle.isValid (handle : MetricHandle) : Bool := handle.slot.isSome && handle.type != .none

/-- What the three arrays of the registry hold at one index. -/
structure Metric where
  name : String
  type : MetricType
  slot : MetricSlot := {}
deriving DecidableEq, Repr

/-- The registered part of the arrays; its length is `registeredCount`. -/
structure MetricRegistry where
  metrics : List Metric := []
  initialized : Bool := false
deriving DecidableEq, Repr

namespace MetricRegistry

/-- Running out of slots traps. -/
def registerMetric (registry : MetricRegistry) (type : MetricType) (name : String) : Option (MetricRegistry × MetricHandle) :=
  if registry.initialized then some (registry, {})
  else
    let idx := registry.metrics.length
    if MaxMetrics ≤ idx then none
    else some ({ registry with metrics := registry.metrics ++ [{ name, type }] }, ⟨idx.toUInt16, type, some idx⟩)

def finalize (registry : MetricRegistry) : MetricRegistry := { registry with initialized := true }

/-- Write to a slot through its pointer. -/
def modifySlot (registry : MetricRegistry) (slot : Nat) (change : MetricSlot → MetricSlot) : Option MetricRegistry :=
  match registry.metrics[slot]? with
  | none => none
  | some metric => some { registry with metrics := registry.metrics.set slot { metric with slot := change metric.slot } }

/-- `value()` of a handle. A slot that is not registered still holds zero. -/
def value (registry : MetricRegistry) (handle : MetricHandle) : UInt64 :=
  if handle.isValid = false then 0
  else
    match handle.slot.bind (registry.metrics[·]?) with
    | none => 0
    | some metric => metric.slot.value

end MetricRegistry

/-- The registry with the handles of the processed orders, the latency and the
queue. -/
def initMetrics : Option (MetricRegistry × MetricHandle × MetricHandle × MetricHandle) := do
  let (registry, ordersProcessed) ← MetricRegistry.registerMetric {} .counter "orders.processed"
  let (registry, processingLatencyUs) ← registry.registerMetric .histogram "latency.processing_us"
  let (registry, queueSize) ← registry.registerMetric .gauge "queue.size"
  return (registry.finalize, ordersProcessed, processingLatencyUs, queueSize)

/-! ### Recording a value -/

/-- Which atomic operation a call performs next, with the value that the next
exchange expects. -/
inductive Place where
  | addCount
  | addSum
  | loadMin
  | exchangeMin (oldMin : UInt64)
  | loadMax
  | exchangeMax (oldMax : UInt64)
  | finished
deriving DecidableEq, Repr

structure Call where
  slot : Nat
  value : UInt64
  place : Place := .addCount
deriving DecidableEq, Repr

namespace Call

/-- The conditions of the two loops. -/
def lowers (call : Call) (oldMin : UInt64) : Place := if call.value < oldMin then .exchangeMin oldMin else .loadMax

def raises (call : Call) (oldMax : UInt64) : Place := if oldMax < call.value then .exchangeMax oldMax else .finished

/-- One atomic operation of a call. A weak exchange may fail although the slot
holds what it expects; when it fails, it loads what the slot holds. -/
def advance (call : Call) (slot : MetricSlot) (spurious : Bool) : MetricSlot × Place :=
  match call.place with
  | .addCount => ({ slot with count := slot.count + 1 }, .addSum)
  | .addSum => ({ slot with sum := slot.sum + call.value }, .loadMin)
  | .loadMin => (slot, call.lowers slot.min)
  | .exchangeMin oldMin =>
    if slot.min = oldMin ∧ spurious = false then ({ slot with min := call.value }, .loadMax)
    else (slot, call.lowers slot.min)
  | .loadMax => (slot, call.raises slot.max)
  | .exchangeMax oldMax =>
    if slot.max = oldMax ∧ spurious = false then ({ slot with max := call.value }, .finished)
    else (slot, call.raises slot.max)
  | .finished => (slot, .finished)

end Call

/-! ### Exporting -/

structure MetricSnapshot where
  name : String := ""
  type : MetricType := .none
  value : UInt64 := 0
  sum : UInt64 := 0
  count : UInt64 := 0
  min : UInt64 := 0
  max : UInt64 := 0
deriving DecidableEq, Repr

/-- The fields of a slot, in the order that `snapshot` loads them. -/
inductive Field where
  | value | sum | count | min | max
deriving DecidableEq, Repr

/-- Where the exporter's loop is: asleep, in `snapshot` before it loads this
field of slot `i`, before it prints, or in `resetHistograms` before it stores this
field of slot `i`. It stores no `value`; there it looks at the type. -/
inductive Exporter where
  | sleeping
  | loading (count i : Nat) (result : List MetricSnapshot) (snap : MetricSnapshot) (field : Field)
  | printing (result : List MetricSnapshot)
  | resetting (count i : Nat) (field : Field)
deriving DecidableEq, Repr

/-- The registry with the calls that have begun and the exporter, and the
snapshots it has printed. -/
structure System where
  registry : MetricRegistry
  calls : List Call := []
  exporter : Exporter := .sleeping
  exported : List (List MetricSnapshot) := []
deriving DecidableEq, Repr

namespace System

/-- The next step of `exporterThread`. -/
def exporterThread (system : System) : Option System :=
  match system.exporter with
  | .sleeping => some { system with exporter := .loading system.registry.metrics.length 0 [] {} .value }
  | .loading count i result snap field =>
    if i < count then
      match system.registry.metrics[i]? with
      | none => none
      | some ⟨name, type, slot⟩ =>
        match field with
        | .value => some { system with exporter := .loading count i result { name, type, value := slot.value } .sum }
        | .sum => some { system with exporter := .loading count i result { snap with sum := slot.sum } .count }
        | .count => some { system with exporter := .loading count i result { snap with count := slot.count } .min }
        | .min => some { system with exporter := .loading count i result { snap with min := slot.min } .max }
        | .max => some { system with exporter := .loading count (i + 1) (result ++ [{ snap with max := slot.max }]) {} .value }
    else some { system with exporter := .printing result }
  | .printing result =>
    some { system with exporter := .resetting system.registry.metrics.length 0 .value, exported := system.exported ++ [result] }
  | .resetting count i field =>
    if i < count then
      match system.registry.metrics[i]? with
      | none => none
      | some metric =>
        match field with
        | .value =>
          if metric.type = .histogram then some { system with exporter := .resetting count i .sum }
          else some { system with exporter := .resetting count (i + 1) .value }
        | .sum => do
          let registry ← system.registry.modifySlot i fun slot => { slot with sum := 0 }
          return { system with registry, exporter := .resetting count i .count }
        | .count => do
          let registry ← system.registry.modifySlot i fun slot => { slot with count := 0 }
          return { system with registry, exporter := .resetting count i .min }
        | .min => do
          let registry ← system.registry.modifySlot i fun slot => { slot with min := InitialMinValue }
          return { system with registry, exporter := .resetting count i .max }
        | .max => do
          let registry ← system.registry.modifySlot i fun slot => { slot with max := 0 }
          return { system with registry, exporter := .resetting count (i + 1) .value }
    else some { system with exporter := .sleeping }

/-! ### All threads -/

/-- Enter the recording of a value. The slot pointer is followed. -/
def enter (system : System) (handle : MetricHandle) (value : UInt64) : Option System :=
  match handle.slot with
  | none => none
  | some slot => some { system with calls := system.calls ++ [{ slot, value }] }

def recordHistogram (system : System) (handle : MetricHandle) (value : UInt64) : Option System :=
  if handle.type ≠ .histogram then some system else system.enter handle value

/-- The same of `MetricsControllerEx.cpp`, which checks the handle first. -/
def record (system : System) (handle : MetricHandle) (value : UInt64) : Option System :=
  if handle.isValid = false ∨ handle.type ≠ .histogram then some system else system.enter handle value

def modifyValue (system : System) (handle : MetricHandle) (change : UInt64 → UInt64) : Option System :=
  match handle.slot with
  | none => none
  | some slot => do
    let registry ← system.registry.modifySlot slot fun slot => { slot with value := change slot.value }
    return { system with registry }

def increment (system : System) (handle : MetricHandle) (delta : UInt64) : Option System :=
  if handle.isValid = false ∨ handle.type ≠ .counter then some system else system.modifyValue handle (· + delta)

def setGauge (system : System) (handle : MetricHandle) (value : UInt64) : Option System :=
  if handle.isValid = false ∨ handle.type ≠ .gauge then some system else system.modifyValue handle fun _ => value

/-- The next atomic operation of one of the calls. -/
def advance (system : System) (index : Nat) (spurious : Bool) : Option System :=
  match system.calls[index]? with
  | none => none
  | some call =>
    match system.registry.metrics[call.slot]? with
    | none => none
    | some metric => do
      let (slot, place) := call.advance metric.slot spurious
      let registry ← system.registry.modifySlot call.slot fun _ => slot
      return { system with registry, calls := system.calls.set index { call with place } }

end System

/-- Who takes the next step. -/
inductive Turn where
  | recordHistogram (handle : MetricHandle) (value : UInt64)
  | record (handle : MetricHandle) (value : UInt64)
  | increment (handle : MetricHandle) (delta : UInt64)
  | setGauge (handle : MetricHandle) (value : UInt64)
  | advance (index : Nat) (spurious : Bool)
  | exporterThread
deriving DecidableEq, Repr

namespace System

def step (system : System) : Turn → Option System
  | .recordHistogram handle value => system.recordHistogram handle value
  | .record handle value => system.record handle value
  | .increment handle delta => system.increment handle delta
  | .setGauge handle value => system.setGauge handle value
  | .advance index spurious => system.advance index spurious
  | .exporterThread => system.exporterThread

def run (system : System) (turns : List Turn) : Option System := turns.foldlM step system

end System
end FinanceTech.Metrics
