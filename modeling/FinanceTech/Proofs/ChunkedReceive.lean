import Mathlib.Data.List.Basic
import Mathlib.Algebra.Order.Ring.Nat
import FinanceTech.UdsServer

/-! The server receives every chunk at the start of its buffer, and counts its
length all the same. A message of one chunk is seen as it was sent; one of several
chunks only where what is overwritten is what it is overwritten with. -/

namespace FinanceTech.Proofs.ChunkedReceive

open Strings Servers

/-- What the chunks received mean: the full ones and the shorter one that ends each message. -/
def messagesFrom : List Text → List RecvResult → List (List Text × Text)
  | _, [] => []
  | pending, .failed :: rest => messagesFrom pending rest
  | _, .closed :: rest => messagesFrom [] rest
  | pending, .chunk bytes _ :: rest =>
    if bytes.length < BUFFER_SIZE.toNat then (pending, bytes) :: messagesFrom [] rest else messagesFrom (pending ++ [bytes]) rest

/-- All the chunks of a message, in order. -/
def whole (message : List Text × Text) : Text := message.1.flatten ++ message.2

/-- A message of one chunk, or one whose bytes are all zero but for those of a single full chunk
behind the length of the last. -/
def Harmless : List Text × Text → Prop
  | ([], _) => True
  | (first :: rest, last) =>
    2048 * (rest.length + 2) < 2 ^ 32 ∧ (∀ byte ∈ rest.flatten ++ last, byte = 0) ∧
      ∀ byte ∈ first.take (if rest = [] then last.length else 2048), byte = 0

/-- The buffer while the full chunks of a message are pending: only its first bytes were ever
written, and they hold the last chunk. -/
structure Represents (buffer : Buffer) (pending : List Text) : Prop where
  zeros : ∀ byte ∈ buffer.buffer.drop 2048, byte = 0
  start : ∀ chunk, pending.getLast? = some chunk → buffer.buffer.take 2048 = chunk
  chunks : ∀ chunk ∈ pending, chunk.length = 2048
  length : buffer.length.toNat = 2048 * pending.length % 2 ^ 32
  room : 2048 * pending.length < 2 ^ 32 → 2048 * pending.length ≤ buffer.buffer.length
  small : buffer.buffer.length ≤ 2 ^ 32 - 2048

theorem new_represents {size : Nat} (small : size ≤ 2 ^ 32 - 2048) : Represents { buffer := List.replicate size 0, length := 0 } [] where
  zeros := by
    intro byte member
    exact List.eq_of_mem_replicate (List.mem_of_mem_drop member)
  start := by simp
  chunks := by simp
  length := rfl
  room := fun _ => Nat.zero_le _
  small := by rw [List.length_replicate]; exact small

private theorem reset_represents {buffer : Buffer} {pending : List Text} (valid : Represents buffer pending) : Represents buffer.reset [] where
  zeros := valid.zeros
  start := by simp
  chunks := by simp
  length := rfl
  room := fun _ => Nat.zero_le _
  small := valid.small

theorem Represents.pending_room {buffer : Buffer} {pending : List Text} (valid : Represents buffer pending) (nonempty : pending ≠ []) :
    2048 ≤ buffer.buffer.length := by
  obtain ⟨chunk, last⟩ := Option.ne_none_iff_exists'.mp (fun none => nonempty (List.getLast?_eq_none_iff.mp none))
  have start := congrArg List.length (valid.start chunk last)
  rw [valid.chunks chunk (List.mem_of_getLast? last), List.length_take] at start
  omega

theorem resize_grows {storage : Text} {size : Nat} (grows : storage.length ≤ size) :
    resize storage size = storage ++ List.replicate (size - storage.length) 0 := by
  rw [resize, List.take_of_length_le grows]

private theorem resize_represents {buffer : Buffer} {pending : List Text} (valid : Represents buffer pending) {size : Nat}
    (grows : buffer.buffer.length ≤ size) (small : size ≤ 2 ^ 32 - 2048) :
    Represents { buffer with buffer := resize buffer.buffer size } pending where
  zeros := by
    intro byte member
    dsimp only at member
    rw [resize_grows grows] at member
    rcases List.mem_append.mp (List.drop_append .. ▸ member) with old | new
    · exact valid.zeros byte old
    · exact List.eq_of_mem_replicate (List.mem_of_mem_drop new)
  start := by
    intro chunk last
    have inside := valid.pending_room (List.ne_nil_of_mem (List.mem_of_getLast? last))
    dsimp only
    rw [resize_grows grows, List.take_append_of_le_length inside]
    exact valid.start chunk last
  chunks := valid.chunks
  length := valid.length
  room := by
    intro fits
    have before := valid.room fits
    dsimp only
    rw [resize_grows grows, List.length_append]
    omega
  small := by
    dsimp only
    rw [resize_grows grows, List.length_append, List.length_replicate]
    omega

theorem validate_represents {buffer : Buffer} {pending : List Text} (valid : Represents buffer pending) :
    Represents (buffer.validateCapacity BUFFER_SIZE) pending ∧ 2048 ≤ (buffer.validateCapacity BUFFER_SIZE).buffer.length ∧
      (2048 * (pending.length + 1) < 2 ^ 32 → 2048 * (pending.length + 1) ≤ (buffer.validateCapacity BUFFER_SIZE).buffer.length) := by
  have size : (buffer.length + BUFFER_SIZE).toNat = 2048 * (pending.length + 1) % 2 ^ 32 := by
    rw [UInt32.toNat_add, valid.length, show BUFFER_SIZE.toNat = 2048 from rfl]
    omega
  unfold Buffer.validateCapacity
  by_cases enough : buffer.buffer.length ≥ (buffer.length + BUFFER_SIZE).toNat
  · rw [if_pos enough]
    refine ⟨valid, ?_, ?_⟩
    · by_cases empty : pending = []
      · rw [empty, List.length_nil] at size
        omega
      · exact valid.pending_room empty
    · intro fits
      omega
  · rw [if_neg enough]
    have grows := Nat.le_of_lt (Nat.lt_of_not_le enough)
    have length : (resize buffer.buffer (buffer.length + BUFFER_SIZE).toNat).length = (buffer.length + BUFFER_SIZE).toNat := by
      rw [resize_grows grows, List.length_append, List.length_replicate]
      omega
    refine ⟨resize_represents valid grows (by omega), ?_, ?_⟩
    · rw [length]
      omega
    · intro small
      rw [length]
      omega

/-! What a chunk leaves in the buffer. -/

section Received

variable {buffer : Buffer} {pending : List Text} {bytes : Text}

def received (buffer : Buffer) (bytes : Text) : Buffer :=
  { buffer with buffer := bytes ++ buffer.buffer.drop bytes.length }.incrementLength (UInt32.ofNat bytes.length)

theorem copy_start (room : 2048 ≤ buffer.buffer.length) (bound : bytes.length ≤ 2048) :
    copyTo buffer.buffer 0 bytes = some (bytes ++ buffer.buffer.drop bytes.length) := by
  rw [copyTo, if_pos (by omega)]
  simp

theorem received_drop (bound : bytes.length ≤ 2048) : (received buffer bytes).buffer.drop 2048 = buffer.buffer.drop 2048 := by
  simp only [received, Buffer.incrementLength, List.drop_append, List.drop_drop]
  rw [List.drop_eq_nil_of_le bound, List.nil_append, Nat.add_sub_cancel' bound]

theorem received_take (bound : bytes.length ≤ 2048) :
    (received buffer bytes).buffer.take 2048 = bytes ++ (buffer.buffer.take 2048).drop bytes.length := by
  simp only [received, Buffer.incrementLength, List.take_append]
  rw [List.take_of_length_le bound, List.drop_take]

theorem received_buffer_length (room : 2048 ≤ buffer.buffer.length) (bound : bytes.length ≤ 2048) :
    (received buffer bytes).buffer.length = buffer.buffer.length := by
  simp only [received, Buffer.incrementLength, List.length_append, List.length_drop]
  omega

theorem received_length (valid : Represents buffer pending) (bound : bytes.length ≤ 2048) :
    (received buffer bytes).length.toNat = (2048 * pending.length + bytes.length) % 2 ^ 32 := by
  have small : bytes.length < 2 ^ 32 := by omega
  simp only [received, Buffer.incrementLength, UInt32.toNat_add, UInt32.toNat_ofNat', valid.length]
  omega

private theorem received_represents (valid : Represents buffer pending) (room : 2048 ≤ buffer.buffer.length)
    (ahead : 2048 * (pending.length + 1) < 2 ^ 32 → 2048 * (pending.length + 1) ≤ buffer.buffer.length) (full : bytes.length = 2048) :
    Represents (received buffer bytes) (pending ++ [bytes]) where
  zeros := by
    rw [received_drop (Nat.le_of_eq full)]
    exact valid.zeros
  start := by
    intro chunk last
    rw [List.getLast?_concat] at last
    rw [received_take (Nat.le_of_eq full), full, List.drop_eq_nil_of_le (by rw [List.length_take]; omega), List.append_nil]
    exact Option.some.inj last
  chunks := by
    intro chunk member
    rcases List.mem_append.mp member with old | new
    · exact valid.chunks chunk old
    · exact (List.mem_singleton.mp new) ▸ full
  length := by
    rw [received_length valid (Nat.le_of_eq full), full, List.length_append, List.length_singleton]
    omega
  room := by
    rw [received_buffer_length room (Nat.le_of_eq full), List.length_append, List.length_singleton]
    exact ahead
  small := by
    rw [received_buffer_length room (Nat.le_of_eq full)]
    exact valid.small

private theorem received_reset (valid : Represents buffer pending) (room : 2048 ≤ buffer.buffer.length) (bound : bytes.length ≤ 2048) :
    Represents (received buffer bytes).reset [] where
  zeros := by
    change ∀ byte ∈ (received buffer bytes).buffer.drop 2048, byte = 0
    rw [received_drop bound]
    exact valid.zeros
  start := by simp
  chunks := by simp
  length := rfl
  room := fun _ => Nat.zero_le _
  small := by
    change (received buffer bytes).buffer.length ≤ 2 ^ 32 - 2048
    rw [received_buffer_length room bound]
    exact valid.small

end Received

theorem whole_length {pending : List Text} (chunks : ∀ chunk ∈ pending, chunk.length = 2048) (bytes : Text) :
    (whole (pending, bytes)).length = 2048 * pending.length + bytes.length := by
  have flat : pending.flatten.length = 2048 * pending.length := by
    induction pending with
    | nil => rfl
    | cons chunk rest ih =>
      rw [List.flatten_cons, List.length_append, chunks chunk List.mem_cons_self, List.length_cons,
        ih (fun other member => chunks other (List.mem_cons_of_mem _ member))]
      omega
  rw [whole, List.length_append, flat]

theorem eq_zeros {text : Text} {storage : Text} (zeros : ∀ byte ∈ storage, byte = 0) (length : text.length = storage.length) :
    storage = text ↔ ∀ byte ∈ text, byte = 0 := by
  have storageZeros := List.eq_replicate_iff.mpr ⟨rfl, zeros⟩
  constructor
  · intro same
    exact same ▸ zeros
  · intro all
    rw [storageZeros, List.eq_replicate_iff.mpr ⟨length, all⟩]

/-- The last chunk lies over the start of the chunk before it; where all but the first is zero,
this is the first chunk exactly where what it lies over is zero. -/
theorem start_iff {first bytes chunk : Text} {rest : List Text} (length : first.length = 2048) (bound : bytes.length ≤ 2048)
    (last : (first :: rest).getLast? = some chunk) (chunks : ∀ chunk ∈ rest, chunk.length = 2048)
    (zeros : ∀ byte ∈ rest.flatten ++ bytes, byte = 0) :
    bytes ++ chunk.drop bytes.length = first ↔ ∀ byte ∈ first.take (if rest = [] then bytes.length else 2048), byte = 0 := by
  have bytesZero : ∀ byte ∈ bytes, byte = 0 := fun byte member => zeros byte (List.mem_append_right _ member)
  by_cases single : rest = []
  · subst single
    obtain rfl : first = chunk := by simpa using last
    rw [if_pos rfl, ← eq_zeros bytesZero (by rw [List.length_take]; omega)]
    constructor
    · intro same
      rw [← same]
      simp
    · intro same
      have split := List.take_append_drop bytes.length first
      rwa [← same] at split
  · have member : chunk ∈ rest := by
      obtain ⟨second, more, isRest⟩ := List.exists_cons_of_ne_nil single
      rw [isRest, List.getLast?_cons_cons, ← isRest] at last
      exact List.mem_of_getLast? last
    have chunkZero : ∀ byte ∈ chunk, byte = 0 := by
      intro byte inside
      exact zeros byte (List.mem_append_left _ (List.mem_flatten.mpr ⟨chunk, member, inside⟩))
    have chunkLength := chunks chunk member
    rw [if_neg single, List.take_of_length_le (by omega), ← eq_zeros _ _]
    · intro byte inside
      rcases List.mem_append.mp inside with new | old
      · exact bytesZero byte new
      · exact chunkZero byte (List.mem_of_mem_drop old)
    · rw [List.length_append, List.length_drop]
      omega

section Content

variable {buffer : Buffer} {pending rest : List Text} {first bytes : Text}

/-- While the length does not wrap a service sees as many bytes as were sent. -/
theorem content_take (valid : Represents buffer pending) (room : 2048 ≤ buffer.buffer.length)
    (ahead : 2048 * (pending.length + 1) ≤ buffer.buffer.length) (bound : bytes.length < 2048) :
    (received buffer bytes).content = some ((received buffer bytes).buffer.take (2048 * pending.length + bytes.length)) := by
  have storage := received_buffer_length room (Nat.le_of_lt bound)
  have length := received_length valid (Nat.le_of_lt bound)
  have small := valid.small
  have seen : (received buffer bytes).length.toNat = 2048 * pending.length + bytes.length := by omega
  rw [Buffer.content, view, seen, if_pos (by omega), List.drop_zero]

private theorem content_wraps (valid : Represents buffer pending) (room : 2048 ≤ buffer.buffer.length) (positive : 0 < bytes.length)
    (bound : bytes.length < 2048) (long : ¬ 2048 * (pending.length + 1) < 2 ^ 32) :
    (received buffer bytes).content ≠ some (whole (pending, bytes)) := by
  have total := whole_length valid.chunks bytes
  have storage := received_buffer_length room (Nat.le_of_lt bound)
  have small := valid.small
  have length := received_length valid (Nat.le_of_lt bound)
  intro seen
  unfold Buffer.content view at seen
  split at seen
  next =>
    have lengths := congrArg List.length (Option.some.inj seen)
    rw [total, List.length_take, List.length_drop] at lengths
    omega
  next => simp at seen

private theorem received_chunks (valid : Represents buffer (first :: rest)) (ahead : 2048 * (rest.length + 2) ≤ buffer.buffer.length)
    (bound : bytes.length < 2048) :
    (received buffer bytes).buffer.take (2048 * (first :: rest).length + bytes.length) = whole (first :: rest, bytes) ↔
      (∀ byte ∈ rest.flatten ++ bytes, byte = 0) ∧ ∀ byte ∈ first.take (if rest = [] then bytes.length else 2048), byte = 0 := by
  obtain ⟨chunk, last⟩ := Option.ne_none_iff_exists'.mp (fun none => List.cons_ne_nil first rest (List.getLast?_eq_none_iff.mp none))
  have firstLength := valid.chunks first List.mem_cons_self
  have restChunks : ∀ chunk ∈ rest, chunk.length = 2048 := fun chunk member => valid.chunks chunk (List.mem_cons_of_mem _ member)
  have restLength : (rest.flatten ++ bytes).length = 2048 * rest.length + bytes.length := whole_length restChunks bytes
  have taken : 2048 * (first :: rest).length + bytes.length = 2048 + (rest.flatten ++ bytes).length := by
    rw [restLength, List.length_cons]
    omega
  have start : (received buffer bytes).buffer.take 2048 = bytes ++ chunk.drop bytes.length := by
    rw [received_take (Nat.le_of_lt bound), valid.start chunk last]
  have behind : (received buffer bytes).buffer.drop 2048 = buffer.buffer.drop 2048 := received_drop (Nat.le_of_lt bound)
  have zerosLength : (rest.flatten ++ bytes).length = ((buffer.buffer.drop 2048).take (rest.flatten ++ bytes).length).length := by
    rw [List.length_take, List.length_drop]
    omega
  have zeros : ∀ byte ∈ (buffer.buffer.drop 2048).take (rest.flatten ++ bytes).length, byte = 0 :=
    fun byte member => valid.zeros byte (List.mem_of_mem_take member)
  have startLength : (bytes ++ chunk.drop bytes.length).length = first.length := by
    rw [List.length_append, List.length_drop, firstLength, valid.chunks chunk (List.mem_of_getLast? last)]
    omega
  have message : whole (first :: rest, bytes) = first ++ (rest.flatten ++ bytes) := List.append_assoc _ _ _
  have parts : bytes ++ chunk.drop bytes.length ++ (buffer.buffer.drop 2048).take (rest.flatten ++ bytes).length =
      first ++ (rest.flatten ++ bytes) ↔ bytes ++ chunk.drop bytes.length = first ∧
        (buffer.buffer.drop 2048).take (rest.flatten ++ bytes).length = rest.flatten ++ bytes :=
    ⟨fun same => List.append_inj same startLength, fun both => by rw [both.1, both.2]⟩
  rw [taken, List.take_add, start, behind, message, parts, eq_zeros zeros zerosLength, and_comm]
  apply and_congr_right
  intro allZero
  exact start_iff firstLength (Nat.le_of_lt bound) last restChunks allZero

/-- A service sees the message that was sent exactly where the message is harmless. -/
theorem content_iff (valid : Represents buffer pending) (room : 2048 ≤ buffer.buffer.length)
    (ahead : 2048 * (pending.length + 1) < 2 ^ 32 → 2048 * (pending.length + 1) ≤ buffer.buffer.length)
    (positive : 0 < bytes.length) (bound : bytes.length < 2048) :
    (received buffer bytes).content = some (whole (pending, bytes)) ↔ Harmless (pending, bytes) := by
  by_cases fits : 2048 * (pending.length + 1) < 2 ^ 32
  · rw [content_take valid room (ahead fits) bound, Option.some.injEq]
    cases pending with
    | nil =>
      have alone : (received buffer bytes).buffer.take bytes.length = bytes := by simp [received, Buffer.incrementLength]
      simp [Harmless, whole, alone]
    | cons first rest =>
      rw [received_chunks valid (ahead fits) bound, Harmless]
      exact (and_iff_right fits).symm
  · refine iff_of_false (content_wraps valid room positive bound fits) ?_
    intro harmless
    cases pending with
    | nil => exact fits (by decide)
    | cons first rest => exact fits harmless.1

end Content

/-! Runs of the loop. -/

private theorem turn_appends {server next : Server} {result : RecvResult} (ran : turn server result = some next) :
    ∃ more, next.processed = server.processed ++ more := by
  cases result with
  | failed =>
    obtain rfl := Option.some.inj ran
    exact ⟨[], by simp⟩
  | closed =>
    obtain rfl := Option.some.inj ran
    exact ⟨[], by simp⟩
  | chunk bytes size =>
    simp only [turn, Option.bind_eq_bind, Option.bind_eq_some_iff] at ran
    obtain ⟨received, _, ran⟩ := ran
    split at ran
    · simp only [process, Option.bind_eq_bind, Option.bind_eq_some_iff] at ran
      obtain ⟨shown, ⟨message, _, isShown⟩, isNext⟩ := ran
      obtain rfl := Option.some.inj isShown
      obtain rfl := Option.some.inj isNext
      exact ⟨[message], rfl⟩
    · obtain rfl := Option.some.inj ran
      exact ⟨[], by simp⟩

private theorem run_appends {results : List RecvResult} {server final : Server} (ran : results.foldlM turn server = some final) :
    ∃ more, final.processed = server.processed ++ more := by
  induction results generalizing server with
  | nil => exact ⟨[], by rw [← Option.some.inj ran, List.append_nil]⟩
  | cons result rest ih =>
    rw [List.foldlM_cons, Option.bind_eq_bind, Option.bind_eq_some_iff] at ran
    obtain ⟨next, turned, later⟩ := ran
    obtain ⟨first, isFirst⟩ := turn_appends turned
    obtain ⟨more, isMore⟩ := ih later
    exact ⟨first ++ more, by rw [isMore, isFirst, List.append_assoc]⟩

private theorem turn_full {server : Server} {pending : List Text} {bytes : Text} (valid : Represents server.buffer pending)
    (size : 0 < bytes.length ∧ bytes.length ≤ BUFFER_SIZE.toNat) (full : ¬ bytes.length < BUFFER_SIZE.toNat) :
    ∃ next, turn server (.chunk bytes size) = some next ∧ next.processed = server.processed ∧
      Represents next.buffer (pending ++ [bytes]) := by
  obtain ⟨ready, room, ahead⟩ := validate_represents valid
  have isFull : bytes.length = 2048 := Nat.le_antisymm size.2 (Nat.le_of_not_lt full)
  refine ⟨{ server with buffer := received (server.buffer.validateCapacity BUFFER_SIZE) bytes }, ?_, rfl,
    received_represents ready room ahead isFull⟩
  simp only [turn, copy_start room size.2, Option.bind_eq_bind, Option.bind_some, if_neg full]
  rfl

private theorem turn_last {server : Server} {pending : List Text} {bytes : Text} (valid : Represents server.buffer pending)
    (size : 0 < bytes.length ∧ bytes.length ≤ BUFFER_SIZE.toNat) (short : bytes.length < BUFFER_SIZE.toNat) :
    ∃ content : Option Text, (content = some (whole (pending, bytes)) ↔ Harmless (pending, bytes)) ∧
      ∃ buffer, Represents buffer [] ∧
        turn server (.chunk bytes size) = content.map (fun message => { buffer, processed := server.processed ++ [message] }) := by
  obtain ⟨ready, room, ahead⟩ := validate_represents valid
  refine ⟨_, content_iff ready room ahead size.1 short, _, received_reset ready room size.2, ?_⟩
  have turned : turn server (.chunk bytes size) =
      (process { server with buffer := received (server.buffer.validateCapacity BUFFER_SIZE) bytes }).bind
        (fun server => some { server with buffer := server.buffer.reset }) := by
    simp only [turn, copy_start room size.2, Option.bind_eq_bind, Option.bind_some, if_pos short]
    rfl
  rw [turned, process]
  cases (received (server.buffer.validateCapacity BUFFER_SIZE) bytes).content <;> rfl

/-- The service is given all the messages as they were sent exactly where each of them is harmless. -/
theorem run_iff (results : List RecvResult) {server : Server} {pending : List Text} (valid : Represents server.buffer pending) :
    (∃ final, results.foldlM turn server = some final ∧
        final.processed = server.processed ++ (messagesFrom pending results).map whole) ↔
      ∀ message ∈ messagesFrom pending results, Harmless message := by
  induction results generalizing server pending with
  | nil => simp [messagesFrom]
  | cons result rest ih =>
    rw [List.foldlM_cons]
    cases result with
    | failed =>
      obtain ⟨ready, _⟩ := validate_represents valid
      apply @ih { server with buffer := server.buffer.validateCapacity BUFFER_SIZE } pending
      dsimp only
      exact ready
    | closed =>
      obtain ⟨ready, _⟩ := validate_represents valid
      apply @ih { server with buffer := (server.buffer.validateCapacity BUFFER_SIZE).reset } []
      dsimp only
      exact reset_represents ready
    | chunk bytes size =>
      by_cases short : bytes.length < BUFFER_SIZE.toNat
      · obtain ⟨content, meaning, buffer, fresh, turned⟩ := turn_last valid size short
        rw [turned, messagesFrom, if_pos short, List.map_cons, List.forall_mem_cons]
        cases content with
        | none =>
          constructor
          · rintro ⟨final, ran, _⟩
            simp at ran
          · intro harmless
            simpa using meaning.mpr harmless.1
        | some message =>
          have later := @ih { buffer, processed := server.processed ++ [message] } [] fresh
          constructor
          · rintro ⟨final, ran, seen⟩
            obtain ⟨more, isMore⟩ := run_appends ran
            rw [isMore, List.append_assoc, List.append_cancel_left_eq, List.singleton_append, List.cons.injEq] at seen
            refine ⟨meaning.mp (congrArg some seen.1), later.mp ⟨final, ran, ?_⟩⟩
            rw [isMore, seen.2]
          · rintro ⟨harmless, others⟩
            obtain ⟨final, ran, seen⟩ := later.mpr others
            refine ⟨final, ran, ?_⟩
            rw [seen, Option.some.inj (meaning.mpr harmless)]
            simp
      · obtain ⟨next, turned, same, more⟩ := turn_full valid size short
        rw [turned, messagesFrom, if_neg short, ← same]
        exact ih more

/-- Whatever a socket sends, every call of the service sees the chunks since the call before exactly where no message has a
full chunk, or only one whose overwritten bytes and the rest are zero. -/
theorem chunked_receive_iff (results : List RecvResult) :
    (∃ final, results.foldlM turn {} = some final ∧ final.processed = (messagesFrom [] results).map whole) ↔
      ∀ message ∈ messagesFrom [] results, Harmless message := by
  have initial : Represents ({} : Server).buffer [] := @new_represents 1024 (by omega)
  have run := run_iff results initial
  rwa [List.nil_append] at run

def repeated (byte : UInt8) (count : Nat) (size : 0 < count ∧ count ≤ BUFFER_SIZE.toNat) : RecvResult :=
  .chunk (List.replicate count byte) (by rw [List.length_replicate]; exact size)

theorem chunked_receive_two_chunks :
    ¬ ∀ results : List RecvResult, ∃ final, results.foldlM turn {} = some final ∧ final.processed = (messagesFrom [] results).map whole := by
  intro all
  have initial : Represents ({} : Server).buffer [] := @new_represents 1024 (by omega)
  have messages := (run_iff [repeated 1 2048 (by decide), repeated 2 1 (by decide)] initial).mp
    (by rw [show ({} : Server).processed = [] from rfl, List.nil_append]; exact all _)
  have sent : messagesFrom [] [repeated 1 2048 (by decide), repeated 2 1 (by decide)] = [([List.replicate 2048 1], [2])] := by
    have full : ¬ (List.replicate 2048 (1 : UInt8)).length < BUFFER_SIZE.toNat := by rw [List.length_replicate]; decide
    simp only [repeated, messagesFrom]
    rw [if_neg full]
    rfl
  rw [sent] at messages
  have zero := (messages _ List.mem_cons_self).2.1 2 (by simp)
  exact absurd zero (by decide)

end FinanceTech.Proofs.ChunkedReceive
