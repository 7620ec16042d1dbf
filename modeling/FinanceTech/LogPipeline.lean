import FinanceTech.OverwritingRings
import FinanceTech.Strings

/-! The low latency logger. Every thread puts its entries into a ring of its own, one
thread collects them from all rings, and another one sorts what was collected at a
time and gives it to the handlers. No lock is held by a put, so every access of a put
or a get to its ring is a step of its own; what a loop does under a lock of its own is
one step. -/

namespace FinanceTech.LowLatencyLogger
open Strings

inductive Level where
  | TRACE | DEBUG | INFO | WARN | ERROR | FATAL | SILENT
deriving DecidableEq, Repr

def toString : Level → String
  | .TRACE => "TRACE"
  | .DEBUG => "DEBUG"
  | .INFO => "INFO"
  | .WARN => "WARN"
  | .ERROR => "ERROR"
  | .FATAL => "FATAL"
  | .SILENT => "SILENT"

/-- A `time_point` of the system clock is the number of its ticks. -/
structure LongEntry where
  timestamp : Int
  text : Text
  level : Level := .INFO
deriving DecidableEq, Repr

instance : Inhabited LongEntry := ⟨{ timestamp := 0, text := [] }⟩

/-- The `operator<` of two entries. -/
def LongEntry.before (first second : LongEntry) : Prop := first.timestamp < second.timestamp

instance (first second : LongEntry) : Decidable (first.before second) := inferInstanceAs (Decidable (_ < _))

/-! ### The handlers -/

def bytes (text : String) : Text := text.toUTF8.data.toList

/-- `{:6s}`: filled up with blanks on the right. -/
def padded (text : Text) : Text := text ++ List.replicate (6 - text.length) 32

/-- What `format` makes of an entry, `{:} [{:6s}] {:}\n`. The time comes from the C
library. -/
def line (getCurrentTime : Int → Text) (entry : LongEntry) : Text :=
  getCurrentTime entry.timestamp ++ bytes " [" ++ padded (bytes (toString entry.level)) ++ bytes "] " ++ entry.text ++ [10]

/-- The test `level > entry.level` that skips an entry. -/
def skips (level : Level) (entry : LongEntry) : Bool := entry.level.ctorIdx < level.ctorIdx

/-- A handler with what it has written to the console. -/
structure ConsoleLogHandler where
  level : Level := .INFO
  out : Text := []
deriving DecidableEq, Repr

def ConsoleLogHandler.handleEntry (getCurrentTime : Int → Text) (handler : ConsoleLogHandler) (entry : LongEntry) :
    ConsoleLogHandler :=
  if skips handler.level entry then handler else { handler with out := handler.out ++ line getCurrentTime entry }

/-- A handler with what its file holds. -/
structure FileLogHandler where
  level : Level := .INFO
  buffer : Text := []
  file : Text := []
deriving DecidableEq, Repr

def bundleSizeMax : Nat := 1024

/-- `opens` is whether the file can be opened for this entry; the buffer is cleared
whether it can or not. -/
def FileLogHandler.handleEntry (getCurrentTime : Int → Text) (opens : Bool) (handler : FileLogHandler) (entry : LongEntry) :
    FileLogHandler :=
  if skips handler.level entry then handler
  else
    let buffer := handler.buffer ++ line getCurrentTime entry
    if buffer.length > bundleSizeMax then
      { handler with buffer := [], file := if opens then handler.file ++ buffer else handler.file }
    else { handler with buffer }

inductive LogHandler where
  | console (handler : ConsoleLogHandler)
  | file (handler : FileLogHandler)
deriving DecidableEq, Repr

def LogHandler.handleEntry (getCurrentTime : Int → Text) (opens : Bool) (entry : LongEntry) : LogHandler → LogHandler
  | .console handler => .console (handler.handleEntry getCurrentTime entry)
  | .file handler => .file (handler.handleEntry getCurrentTime opens entry)

/-! ### The logger -/

def logBundleSize : Nat := 1024

def consumeBlockSize : Nat := 1000

abbrev LogBundle := RingBuffer LongEntry

/-- A bundle, and where its thread is in `put`. -/
structure ThreadLog where
  bundle : LogBundle
  putting : Option (RingBuffer.Put LongEntry) := none
deriving DecidableEq

/-- Where `consumeLogs` stands: asleep, in the loop over the bundles with the number
of entries it has taken from one, in `get` on that one, or about to hand over what it
has collected. -/
inductive ConsumerAt where
  | sleeping
  | collecting (bundle count : Nat)
  | getting (bundle count : Nat) (get : RingBuffer.Get)
  | handing
deriving DecidableEq, Repr

/-- `collected` is the local collection of `consumeLogs`, `handling` what
`handleLogs` has left of its own. -/
structure Logger where
  threadLogs : List ThreadLog := []
  consumer : ConsumerAt := .sleeping
  collected : List LongEntry := []
  logsToHandle : List (List LongEntry) := []
  handling : List LongEntry := []
  handlers : List LogHandler
deriving DecidableEq

inductive LoggerStep where
  /-- A thread that logs for the first time makes its bundle. -/
  | getThreadLocalLogs
  /-- A thread begins to put an entry. -/
  | log (thread : Nat) (entry : LongEntry)
  /-- The next access of its put. -/
  | put (thread : Nat)
  | consumeLogs
  /-- `handleLogs` takes the first collection and sorts it, in an order `std::sort` may choose. -/
  | take (sorted : List LongEntry)
  /-- The next entry goes to every handler. -/
  | handle (opens : Nat → Bool)

namespace Logger

/-- One step of `consumeLogs`. It holds the lock on the list of bundles while it collects. -/
def consumeLogs (moved : LongEntry → LongEntry) (logger : Logger) : Option Logger :=
  match logger.consumer with
  | .sleeping => some { logger with consumer := .collecting 0 0 }
  | .collecting bundle count =>
    match logger.threadLogs[bundle]? with
    | none => some { logger with consumer := .handing }
    | some log =>
      if count < consumeBlockSize then some { logger with consumer := .getting bundle count (.start log.bundle) }
      else some { logger with consumer := .collecting (bundle + 1) 0 }
  | .getting bundle count get => do
    let log ← logger.threadLogs[bundle]?
    let (logBundle, result) ← log.bundle.getStep moved get
    let logger := { logger with threadLogs := logger.threadLogs.set bundle { log with bundle := logBundle } }
    match result with
    | .inl get => return { logger with consumer := .getting bundle count get }
    | .inr none => return { logger with consumer := .collecting (bundle + 1) 0 }
    | .inr (some logEntry) => return { logger with
        collected := logger.collected ++ [logEntry], consumer := .collecting bundle (count + 1) }
  | .handing =>
    if logger.collected.isEmpty then some { logger with consumer := .sleeping }
    else some { logger with
      logsToHandle := logger.logsToHandle ++ [logger.collected], collected := [], consumer := .sleeping }

/-- Whether the shared lock on the list of bundles is held. -/
def locked (logger : Logger) : Bool :=
  match logger.consumer with
  | .collecting _ _ | .getting _ _ _ => true
  | _ => false

/-- A step that cannot be taken now, or that leaves a bundle, has no result. -/
def step (getCurrentTime : Int → Text) (moved : LongEntry → LongEntry) (logger : Logger) : LoggerStep → Option Logger
  | .getThreadLocalLogs =>
    if logger.locked then none
    else some { logger with threadLogs := logger.threadLogs ++ [{ bundle := RingBuffer.new logBundleSize }] }
  | .log thread entry => do
    let log ← logger.threadLogs[thread]?
    if log.putting.isSome then none
    else return { logger with threadLogs := logger.threadLogs.set thread { log with putting := some (.start log.bundle entry) } }
  | .put thread => do
    let log ← logger.threadLogs[thread]?
    let (bundle, putting) ← log.bundle.putStep (← log.putting)
    return { logger with threadLogs := logger.threadLogs.set thread { bundle, putting } }
  | .consumeLogs => logger.consumeLogs moved
  | .take sorted =>
    match logger.logsToHandle with
    | [] => none
    | logsLocal :: rest =>
      if logger.handling = [] ∧ sorted.Perm logsLocal ∧ sorted.Pairwise fun first second => ¬ second.before first then
        some { logger with handling := sorted, logsToHandle := rest }
      else none
  | .handle opens =>
    match logger.handling with
    | [] => none
    | entry :: rest => some { logger with
        handling := rest
        handlers := logger.handlers.mapIdx fun index handler => handler.handleEntry getCurrentTime (opens index) entry }

def run (getCurrentTime : Int → Text) (moved : LongEntry → LongEntry) (logger : Logger) (steps : List LoggerStep) : Option Logger :=
  steps.foldlM (step getCurrentTime moved) logger

end Logger
end FinanceTech.LowLatencyLogger
