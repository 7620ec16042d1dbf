import Mathlib.Data.List.Basic
import Mathlib.Algebra.Order.Ring.Nat
import FinanceTech.ByteBuffer
import FinanceTech.Library.RingWindow
import FinanceTech.Library.Runs

/-! The buffer holds the bytes appended since it was last cleared, as long as no
size is rounded up that has no power of two within the type: nothing at all, or
more than half of what the type can count. -/

namespace FinanceTech.Proofs.BufferContents

open Strings Buffers Library

private theorem countlZero_of {value : UInt32} (positive : value ≠ 0) : 32 - countlZero value = value.toNat.log2 + 1 := by
  have nonzero : value.toNat ≠ 0 := fun zero => positive (UInt32.toNat_inj.mp zero)
  have small : value.toNat.log2 < 32 := (Nat.log2_lt nonzero).mpr value.toNat_lt
  rw [countlZero, if_neg positive]
  omega

private theorem roundUpToPow2_some {value : UInt32} (positive : 1 ≤ value.toNat) (bound : value.toNat ≤ 2 ^ 31) :
    ∃ rounded, Buffer.roundUpToPow2 value = some rounded ∧ value.toNat ≤ rounded.toNat ∧ rounded.toNat ≤ 2 ^ 31 := by
  have pred : (value - 1).toNat = value.toNat - 1 := RingWindow.toNat_pred fun zero => by
    rw [zero] at positive
    cases positive
  by_cases one : value - 1 = 0
  · have isOne : value.toNat ≤ 1 := by
      rw [one] at pred
      change 0 = _ at pred
      omega
    refine ⟨1, ?_, isOne, by decide⟩
    simp only [Buffer.roundUpToPow2, one]
    rfl
  · have nonzero : (value - 1).toNat ≠ 0 := fun zero => one (UInt32.toNat_inj.mp zero)
    have width : (value - 1).toNat.log2 < 31 := (Nat.log2_lt nonzero).mpr (by omega)
    have above : (value - 1).toNat < 2 ^ ((value - 1).toNat.log2 + 1) := (Nat.log2_lt nonzero).mp (Nat.lt_succ_self _)
    have top : 2 ^ ((value - 1).toNat.log2 + 1) ≤ 2 ^ 31 := Nat.pow_le_pow_right (by decide) width
    have exact : (UInt32.ofNat (2 ^ ((value - 1).toNat.log2 + 1))).toNat = 2 ^ ((value - 1).toNat.log2 + 1) := by
      rw [UInt32.toNat_ofNat']
      exact Nat.mod_eq_of_lt (by omega)
    refine ⟨UInt32.ofNat (2 ^ ((value - 1).toNat.log2 + 1)), ?_, by omega, by omega⟩
    simp only [Buffer.roundUpToPow2, countlZero_of one]
    rw [if_pos (by omega)]

private theorem roundUpToPow2_bounds {value rounded : UInt32} (some : Buffer.roundUpToPow2 value = some rounded) :
    1 ≤ value.toNat ∧ value.toNat ≤ 2 ^ 31 ∧ rounded.toNat ≤ 2 ^ 31 := by
  have within : 1 ≤ value.toNat ∧ value.toNat ≤ 2 ^ 31 := by
    by_contra outside
    have wide : 2 ^ 31 ≤ (value - 1).toNat := by
      have bound := value.toNat_lt
      rw [UInt32.toNat_sub, show (1 : UInt32).toNat = 1 from rfl]
      omega
    have positive : value - 1 ≠ 0 := by
      intro zero
      rw [zero] at wide
      exact absurd wide (by decide)
    have nonzero : (value - 1).toNat ≠ 0 := by omega
    have width : 31 ≤ (value - 1).toNat.log2 := (Nat.le_log2 nonzero).mpr wide
    unfold Buffer.roundUpToPow2 at some
    simp only [countlZero_of positive] at some
    rw [if_neg (by omega)] at some
    simp at some
  obtain ⟨same, rounds, _, bound⟩ := roundUpToPow2_some within.1 within.2
  obtain rfl := Option.some.inj (rounds.symm.trans some)
  exact ⟨within.1, within.2, bound⟩

def memory (buffer : Buffer) : List (Option UInt8) := buffer.data.getD []

structure Holds (buffer : Buffer) (contents : Text) : Prop where
  size : buffer.size.toNat = contents.length
  allocated : (memory buffer).length = buffer.capacity.toNat
  enough : contents.length ≤ buffer.capacity.toNat
  bytes : (memory buffer).take contents.length = contents.map some

theorem free_eq (buffer : Buffer) : buffer.free = (memory buffer).length - buffer.size.toNat := by
  unfold Buffer.free memory
  cases buffer.data <;> rfl

variable {buffer : Buffer} {contents : Text}

theorem holds_initial : Holds {} [] where
  size := rfl
  allocated := rfl
  enough := Nat.le_refl _
  bytes := rfl

private theorem holds_ofCapacity (initialCapacity : UInt32) : Holds (Buffer.ofCapacity initialCapacity) [] where
  size := rfl
  allocated := List.length_replicate
  enough := Nat.zero_le _
  bytes := rfl

theorem holds_clear (holds : Holds buffer contents) : Holds buffer.clear [] where
  size := rfl
  allocated := holds.allocated
  enough := Nat.zero_le _
  bytes := rfl

/-- New memory starts with what the old one held. -/
theorem ensureCapacity_spec (holds : Holds buffer contents) (newCapacity : UInt32) (positive : 1 ≤ newCapacity.toNat)
    (bound : newCapacity.toNat ≤ 2 ^ 31) (enough : contents.length ≤ newCapacity.toNat) :
    ∃ next data, buffer.ensureCapacity newCapacity = some next ∧ next.data = some data ∧ Holds next contents ∧
      newCapacity.toNat ≤ next.capacity.toNat := by
  obtain ⟨rounded, rounds, above, _⟩ := roundUpToPow2_some positive bound
  have fresh : (uninitialized rounded.toNat).length = rounded.toNat := List.length_replicate
  cases present : buffer.data with
  | none =>
    have empty : contents = [] := by
      have length := congrArg List.length holds.bytes
      simp only [memory, present, Option.getD_none, List.take_nil, List.length_nil, List.length_map] at length
      exact List.eq_nil_of_length_eq_zero length.symm
    subst empty
    refine ⟨{ buffer with data := some (uninitialized rounded.toNat), capacity := rounded }, _, ?_, rfl, ?_, above⟩
    · simp only [Buffer.ensureCapacity, Buffer.relocate, rounds, present, Option.bind_eq_bind, Option.bind_some, Option.pure_def]
    · exact { size := holds.size, allocated := fresh, enough := Nat.zero_le _, bytes := rfl }
  | some data =>
    have allocated := holds.allocated
    have taken := holds.bytes
    simp only [memory, present, Option.getD_some] at allocated taken
    have size := holds.size
    have room := holds.enough
    have copied : copyTo (uninitialized rounded.toNat) 0 (data.take buffer.size.toNat) =
        some (contents.map some ++ (uninitialized rounded.toNat).drop contents.length) := by
      rw [size, taken, copyTo, if_pos (by rw [List.length_map]; omega), List.length_map, Nat.zero_add]
      rfl
    refine ⟨{ buffer with data := some (contents.map some ++ (uninitialized rounded.toNat).drop contents.length), capacity := rounded }, _,
      ?_, rfl, ?_, above⟩
    · simp only [Buffer.ensureCapacity, Buffer.relocate, rounds, present, Option.bind_eq_bind, Option.bind_some, Option.pure_def]
      rw [if_pos (by omega), copied]
      rfl
    · refine { size, allocated := ?_, enough := Nat.le_trans enough above, bytes := ?_ }
      · simp only [memory, Option.getD_some, List.length_append, List.length_map, List.length_drop, fresh]
        omega
      · simp only [memory, Option.getD_some]
        exact List.take_left' (List.length_map _)

theorem write_spec (holds : Holds buffer contents) {data : List (Option UInt8)} (present : buffer.data = some data) (bytes : Text)
    (room : contents.length + bytes.length ≤ buffer.capacity.toNat) :
    ∃ written, copyTo data buffer.size.toNat (bytes.map some) = some written ∧
      Holds { buffer with data := some written, size := buffer.size + UInt32.ofNat bytes.length } (contents ++ bytes) := by
  have allocated := holds.allocated
  have taken := holds.bytes
  simp only [memory, present, Option.getD_some] at allocated taken
  have size := holds.size
  have bound := buffer.capacity.toNat_lt
  refine ⟨_, by rw [copyTo, if_pos (by rw [List.length_map]; omega)], ?_⟩
  refine { size := ?_, allocated := ?_, enough := ?_, bytes := ?_ }
  · rw [UInt32.toNat_add, UInt32.toNat_ofNat', size, List.length_append]
    omega
  · simp only [memory, Option.getD_some, List.length_append, List.length_take, List.length_map, List.length_drop]
    omega
  · rw [List.length_append]
    exact room
  · simp only [memory, Option.getD_some, size, taken, List.length_append, List.map_append]
    exact List.take_left' (by rw [List.length_append, List.length_map, List.length_map])

/-- The bytes appended since the buffer was last cleared. -/
def appended (operations : List Operation) : Text :=
  operations.foldl (fun contents operation => match operation with
    | .pushBack c => contents ++ [c]
    | .append str => contents ++ str
    | .fill _ bytes _ => contents ++ bytes
    | .clear => []) []

/-- What makes an operation do what it says: the size it asks for is not nothing, and no more than half the range. -/
def Works (client : Client) : Operation → Prop
  | .pushBack _ => client.buffer.size.toNat + 1 ≤ 2 ^ 31
  | .append str => 1 ≤ client.buffer.size.toNat + str.length ∧ client.buffer.size.toNat + str.length ≤ 2 ^ 31
  | .fill n _ _ => n ≤ client.buffer.capacity - client.buffer.size ∨ client.buffer.capacity.toNat + n.toNat ≤ 2 ^ 31
  | .clear => True

private theorem pushBack_spec (holds : Holds buffer contents) (c : UInt8) (bound : buffer.size.toNat + 1 ≤ 2 ^ 31) :
    ∃ next, buffer.pushBack c = some next ∧ Holds next (contents ++ [c]) := by
  have size := holds.size
  have asked : (buffer.size + 1).toNat = contents.length + 1 := by
    rw [UInt32.toNat_add, show (1 : UInt32).toNat = 1 from rfl]
    omega
  obtain ⟨grown, data, grew, present, held, room⟩ := ensureCapacity_spec holds (buffer.size + 1) (by omega) (by omega) (by omega)
  obtain ⟨written, wrote, holding⟩ := write_spec held present [c] (by rw [List.length_singleton]; omega)
  refine ⟨_, ?_, holding⟩
  simp only [Buffer.pushBack, grew, present, Option.bind_eq_bind, Option.bind_some]
  rw [List.map_singleton] at wrote
  rw [wrote]
  rfl

private theorem append_spec (holds : Holds buffer contents) (str : Text) (positive : 1 ≤ buffer.size.toNat + str.length)
    (bound : buffer.size.toNat + str.length ≤ 2 ^ 31) : ∃ next, buffer.append str = some next ∧ Holds next (contents ++ str) := by
  have size := holds.size
  have asked : (buffer.size + UInt32.ofNat str.length).toNat = contents.length + str.length := by
    rw [UInt32.toNat_add, UInt32.toNat_ofNat']
    omega
  obtain ⟨grown, data, grew, present, held, room⟩ :=
    ensureCapacity_spec holds (buffer.size + UInt32.ofNat str.length) (by omega) (by omega) (by omega)
  obtain ⟨written, wrote, holding⟩ := write_spec held present str (by omega)
  refine ⟨_, ?_, holding⟩
  simp only [Buffer.append, grew, present, wrote, Option.bind_eq_bind, Option.bind_some, Option.pure_def]

theorem room_toNat (holds : Holds buffer contents) : (buffer.capacity - buffer.size).toNat = buffer.capacity.toNat - contents.length := by
  have size := holds.size
  have enough := holds.enough
  rw [UInt32.toNat_sub_of_le _ _ (UInt32.le_iff_toNat_le.mpr (by omega)), size]

theorem tail_spec (holds : Holds buffer contents) (n : UInt32)
    (works : n ≤ buffer.capacity - buffer.size ∨ buffer.capacity.toNat + n.toNat ≤ 2 ^ 31) :
    ∃ next, buffer.tail n = some next ∧ Holds next contents ∧ contents.length + n.toNat ≤ next.capacity.toNat := by
  have enough := holds.enough
  have difference := room_toNat holds
  unfold Buffer.tail Buffer.validateCapacity
  by_cases room : n ≤ buffer.capacity - buffer.size
  · have fits := UInt32.le_iff_toNat_le.mp room
    exact ⟨buffer, if_pos room, holds, by omega⟩
  · have short : ¬ n.toNat ≤ buffer.capacity.toNat - contents.length := by rwa [← difference, ← UInt32.le_iff_toNat_le]
    have bound := works.resolve_left room
    have asked : (buffer.capacity + n).toNat = buffer.capacity.toNat + n.toNat := by
      rw [UInt32.toNat_add]
      omega
    obtain ⟨next, _, grew, _, held, above⟩ := ensureCapacity_spec holds (buffer.capacity + n) (by omega) (by omega) (by omega)
    exact ⟨next, by rw [if_neg room, grew], held, by omega⟩

theorem writeTail_spec (holds : Holds buffer contents) (bytes : Text) (room : contents.length + bytes.length ≤ buffer.capacity.toNat) :
    ∃ next, buffer.writeTail bytes = some next ∧ Holds (next.incrementLength (UInt32.ofNat bytes.length)) (contents ++ bytes) := by
  cases present : buffer.data with
  | some data =>
    obtain ⟨written, wrote, holding⟩ := write_spec holds present bytes room
    refine ⟨{ buffer with data := some written }, ?_, holding⟩
    simp only [Buffer.writeTail, present, wrote, Option.bind_eq_bind, Option.bind_some, Option.pure_def]
  | none =>
    have allocated := holds.allocated
    simp only [memory, present, Option.getD_none, List.length_nil] at allocated
    have nothing : bytes = [] := List.eq_nil_of_length_eq_zero (by omega)
    subst nothing
    refine ⟨buffer, ?_, ?_⟩
    · simp only [Buffer.writeTail, present, if_pos]
    · rw [List.append_nil]
      have same : buffer.incrementLength (UInt32.ofNat 0) = buffer := by
        simp [Buffer.incrementLength]
      rw [List.length_nil, same]
      exact holds

/-- What the last operation found behind the content, when it asked for a tail. -/
def Roomy (before : List Operation) (client : Client) : Prop :=
  ∀ earlier n bytes inside, before = earlier ++ [.fill n bytes inside] → n.toNat ≤ client.room

structure Kept (before : List Operation) (client : Client) : Prop where
  holds : Holds client.buffer (appended before)
  roomy : Roomy before client

theorem roomy_other {before : List Operation} {operation : Operation} {client : Client}
    (other : ∀ n bytes inside, operation ≠ .fill n bytes inside) : Roomy (before ++ [operation]) client := by
  intro earlier n bytes inside same
  exact absurd (List.singleton_inj.mp (List.append_inj_right' same rfl)) (other n bytes inside)

theorem appended_concat (before : List Operation) (operation : Operation) :
    appended (before ++ [operation]) = match operation with
      | .pushBack c => appended before ++ [c]
      | .append str => appended before ++ str
      | .fill _ bytes _ => appended before ++ bytes
      | .clear => [] := by
  unfold appended
  rw [List.foldl_append]
  rfl

private theorem step_kept {before : List Operation} {client : Client} (kept : Kept before client) (operation : Operation)
    (works : Works client operation) : ∃ next, step client operation = some next ∧ Kept (before ++ [operation]) next := by
  cases operation with
  | pushBack c =>
    obtain ⟨next, pushed, holds⟩ := pushBack_spec kept.holds c works
    refine ⟨{ client with buffer := next }, ?_, { holds := ?_, roomy := roomy_other (by intros; simp) }⟩
    · simp only [step, pushed, Option.bind_eq_bind, Option.bind_some, Option.pure_def]
    · rw [appended_concat]
      exact holds
  | append str =>
    obtain ⟨next, grew, holds⟩ := append_spec kept.holds str works.1 works.2
    refine ⟨{ client with buffer := next }, ?_, { holds := ?_, roomy := roomy_other (by intros; simp) }⟩
    · simp only [step, grew, Option.bind_eq_bind, Option.bind_some, Option.pure_def]
    · rw [appended_concat]
      exact holds
  | fill n bytes inside =>
    obtain ⟨ready, tailed, held, room⟩ := tail_spec kept.holds n works
    obtain ⟨written, wrote, holds⟩ := writeTail_spec held bytes (by omega)
    refine ⟨{ buffer := written.incrementLength (UInt32.ofNat bytes.length), room := ready.free }, ?_, { holds := ?_, roomy := ?_ }⟩
    · simp only [step, tailed, wrote, Option.bind_eq_bind, Option.bind_some, Option.pure_def]
    · rw [appended_concat]
      exact holds
    · intro earlier m others also same
      have last := List.singleton_inj.mp (List.append_inj_right' same rfl)
      injection last with sameSize
      have size := held.size
      have allocated := held.allocated
      rw [← sameSize]
      change n.toNat ≤ ready.free
      rw [free_eq]
      omega
  | clear =>
    refine ⟨{ client with buffer := client.buffer.clear }, rfl, { holds := ?_, roomy := roomy_other (by intros; simp) }⟩
    rw [appended_concat]
    exact holds_clear kept.holds

theorem ensureCapacity_bounds {newCapacity : UInt32} {next : Buffer} (ensured : buffer.ensureCapacity newCapacity = some next) :
    1 ≤ newCapacity.toNat ∧ newCapacity.toNat ≤ 2 ^ 31 ∧ (memory next).length ≤ 2 ^ 31 ∧ next.size = buffer.size := by
  simp only [Buffer.ensureCapacity, Option.bind_eq_bind, Option.bind_eq_some_iff] at ensured
  obtain ⟨rounded, rounds, data, filled, isNext⟩ := ensured
  obtain rfl := Option.some.inj isNext
  obtain ⟨positive, bound, small⟩ := roundUpToPow2_bounds rounds
  refine ⟨positive, bound, ?_, rfl⟩
  have fresh : (uninitialized rounded.toNat).length = rounded.toNat := List.length_replicate
  change data.length ≤ 2 ^ 31
  unfold Buffer.relocate at filled
  split at filled
  next old _ =>
    split at filled
    · unfold copyTo at filled
      split at filled
      next fits =>
        rw [← Option.some.inj filled]
        simp only [List.length_append, List.length_take, List.length_drop, fresh] at fits ⊢
        omega
      next => simp at filled
    · simp at filled
  next =>
    rw [← Option.some.inj filled, fresh]
    exact small

theorem copyTo_fits {α : Type} {dest bytes written : List α} {position : Nat} (copied : copyTo dest position bytes = some written) :
    position + bytes.length ≤ dest.length := by
  unfold copyTo at copied
  split at copied
  · assumption
  · simp at copied

private theorem pushBack_needs {c : UInt8} {next : Buffer} (pushed : buffer.pushBack c = some next) : buffer.size.toNat + 1 ≤ 2 ^ 31 := by
  simp only [Buffer.pushBack, Option.bind_eq_bind, Option.bind_eq_some_iff] at pushed
  obtain ⟨grown, grew, data, present, written, wrote, _⟩ := pushed
  obtain ⟨_, _, small, same⟩ := ensureCapacity_bounds grew
  have fits := copyTo_fits wrote
  simp only [memory, present, Option.getD_some] at small
  rw [same, List.length_singleton] at fits
  omega

private theorem append_needs {str : Text} {next : Buffer} (grew : buffer.append str = some next) :
    1 ≤ buffer.size.toNat + str.length ∧ buffer.size.toNat + str.length ≤ 2 ^ 31 := by
  simp only [Buffer.append, Option.bind_eq_bind, Option.bind_eq_some_iff] at grew
  obtain ⟨grown, ensured, data, present, written, wrote, _⟩ := grew
  obtain ⟨positive, _, small, same⟩ := ensureCapacity_bounds ensured
  have fits := copyTo_fits wrote
  simp only [memory, present, Option.getD_some] at small
  rw [same, List.length_map] at fits
  rw [UInt32.toNat_add, UInt32.toNat_ofNat'] at positive
  omega

/-- Room behind the content that was made for a tail is room that could be counted. -/
theorem tail_needs (holds : Holds buffer contents) {n : UInt32} {ready : Buffer} (tailed : buffer.tail n = some ready)
    (roomy : n.toNat ≤ ready.free) : n ≤ buffer.capacity - buffer.size ∨ buffer.capacity.toNat + n.toNat ≤ 2 ^ 31 := by
  have size := holds.size
  have enough := holds.enough
  have difference := room_toNat holds
  unfold Buffer.tail Buffer.validateCapacity at tailed
  by_cases room : n ≤ buffer.capacity - buffer.size
  · exact Or.inl room
  · have short : ¬ n.toNat ≤ buffer.capacity.toNat - contents.length := by rwa [← difference, ← UInt32.le_iff_toNat_le]
    rw [if_neg room] at tailed
    obtain ⟨_, bound, small, same⟩ := ensureCapacity_bounds tailed
    rw [free_eq, same] at roomy
    rw [UInt32.toNat_add] at bound
    right
    omega

theorem step_needs {before : List Operation} {client next : Client} (kept : Kept before client) {operation : Operation}
    (ran : step client operation = some next) (roomy : Roomy (before ++ [operation]) next) : Works client operation := by
  cases operation with
  | pushBack c =>
    simp only [step, Option.bind_eq_bind, Option.bind_eq_some_iff] at ran
    obtain ⟨grown, pushed, _⟩ := ran
    exact pushBack_needs pushed
  | append str =>
    simp only [step, Option.bind_eq_bind, Option.bind_eq_some_iff] at ran
    obtain ⟨grown, grew, _⟩ := ran
    exact append_needs grew
  | fill n bytes inside =>
    simp only [step, Option.bind_eq_bind, Option.bind_eq_some_iff] at ran
    obtain ⟨ready, tailed, written, _, isNext⟩ := ran
    have room := roomy before n bytes inside rfl
    rw [← Option.some.inj isNext] at room
    exact tail_needs kept.holds tailed room
  | clear => trivial

/-- What the code promises of a history: every shift is in range, the buffer holds what was appended
and every tail had the room asked for. -/
def Promised (before : List Operation) (result : Option Client) : Prop :=
  ∃ client, result = some client ∧ Holds client.buffer (appended before) ∧ Roomy before client

/-- The buffer as it is constructed, with a capacity or without one. -/
def constructed : Option UInt32 → Buffer
  | .none => {}
  | .some initialCapacity => Buffer.ofCapacity initialCapacity

private theorem constructed_kept (initialCapacity : Option UInt32) : Kept [] { buffer := constructed initialCapacity } where
  holds := by
    cases initialCapacity with
    | none => exact holds_initial
    | some initialCapacity => exact holds_ofCapacity initialCapacity
  roomy := by
    intro earlier n bytes inside same
    simp at same

/-- A buffer keeps its promises throughout a history exactly where every operation in it works. -/
theorem buffer_contents_iff (initialCapacity : Option UInt32) (operations : List Operation) :
    (∀ before, before <+: operations → Promised before (before.foldlM step { buffer := constructed initialCapacity })) ↔
      Runs.AtEveryStepM step Works { buffer := constructed initialCapacity } operations := by
  have shows : ∀ before client, Kept before client → Promised before (some client) :=
    fun before client kept => ⟨client, rfl, kept.holds, kept.roomy⟩
  apply Runs.history_iff Promised shows
  · intro before operation middle _ _ kept works
    exact step_kept kept operation works
  · intro before operation middle _ _ kept promised
    obtain ⟨next, ran, _, roomy⟩ := promised
    exact step_needs kept ran roomy
  · exact constructed_kept initialCapacity

/-- Nothing appended to nothing. -/
theorem buffer_contents_empty_append :
    ¬ ∀ (initialCapacity : Option UInt32) (operations : List Operation), ∀ before, before <+: operations →
      Promised before (before.foldlM step { buffer := constructed initialCapacity }) := by
  intro all
  obtain ⟨client, ran, _⟩ := all none [.append []] [.append []] List.prefix_rfl
  have failed : ([Operation.append []].foldlM step { buffer := constructed none }).isNone = true := by decide
  rw [ran] at failed
  simp at failed

end FinanceTech.Proofs.BufferContents
