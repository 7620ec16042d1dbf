import Mathlib.Data.List.Basic
import Mathlib.Data.List.Induction
import Mathlib.Data.List.Nodup
import Mathlib.Data.List.Perm.Basic
import Mathlib.Data.List.Range
import Mathlib.Algebra.Order.Ring.Nat
import FinanceTech.ObjectPool
import FinanceTech.Library.Runs

/-! Whatever is acquired and released, in whatever order, every slot of every
chunk is either out or available, and only one of them. A chunk is added when
nothing is available, so overwriting the list loses nothing. -/

namespace FinanceTech.Proofs.PoolSlots

open Memory Library

def slotsFrom (block : Nat) : List Nat → List Pointer
  | [] => []
  | count :: rest => iota ⟨block, 0⟩ count ++ slotsFrom (block + 1) rest

/-- All the slots of all the chunks. -/
def slots (blocks : List Nat) : List Pointer := slotsFrom 0 blocks

/-- The slots that are out and those that are available, against all there are. -/
structure Partition (system : System) : Prop where
  every : (system.outstanding ++ system.objects.available).Perm (slots system.blocks)
  distinct : (system.outstanding ++ system.objects.available).Nodup
  capacity : system.objects.capacity.toNat = (slots system.blocks).length

/-- Chunks grow geometrically, and no counter has wrapped. -/
structure Grown (system : System) : Prop where
  sizes : system.blocks = (List.range system.blocks.length).map (fun block => 10 * 4 ^ block)
  next : system.objects.newBlockSize.toNat = 10 * 4 ^ system.blocks.length
  total : 3 * system.objects.capacity.toNat + 10 = 10 * 4 ^ system.blocks.length
  heads : system.objects.pool = (List.range system.blocks.length).map (fun block => ⟨block, 0⟩)

theorem mem_iota {start pointer : Pointer} {count : Nat} (member : pointer ∈ iota start count) : pointer.block = start.block := by
  obtain ⟨offset, _, rfl⟩ := List.mem_map.mp member
  rfl

private theorem iota_nodup (start : Pointer) (count : Nat) : (iota start count).Nodup := by
  apply List.Nodup.map _ List.nodup_range
  intro first second same
  have offsets := congrArg Pointer.offset same
  simp only at offsets
  omega

private theorem mem_slotsFrom {first : Nat} {blocks : List Nat} {pointer : Pointer} (member : pointer ∈ slotsFrom first blocks) :
    first ≤ pointer.block ∧ pointer.block < first + blocks.length := by
  induction blocks generalizing first with
  | nil => simp [slotsFrom] at member
  | cons count rest ih =>
    rw [List.length_cons]
    rcases List.mem_append.mp member with here | later
    · have same := mem_iota here
      simp only at same
      omega
    · have bounds := ih later
      omega

private theorem slotsFrom_append (first : Nat) (blocks : List Nat) (count : Nat) :
    slotsFrom first (blocks ++ [count]) = slotsFrom first blocks ++ iota ⟨first + blocks.length, 0⟩ count := by
  induction blocks generalizing first with
  | nil => simp [slotsFrom]
  | cons size rest ih =>
    have shift : first + 1 + rest.length = first + (size :: rest).length := by
      rw [List.length_cons]
      omega
    rw [List.cons_append, slotsFrom, slotsFrom, ih, List.append_assoc, shift]

private theorem slotsFrom_length (first : Nat) (blocks : List Nat) : (slotsFrom first blocks).length = blocks.sum := by
  induction blocks generalizing first with
  | nil => rfl
  | cons count rest ih => simp [slotsFrom, iota, ih]

theorem slots_concat (blocks : List Nat) (count : Nat) : slots (blocks ++ [count]) = slots blocks ++ iota ⟨blocks.length, 0⟩ count := by
  rw [slots, slotsFrom_append, Nat.zero_add]
  rfl

private theorem slots_nodup (blocks : List Nat) : (slots blocks).Nodup := by
  induction blocks using List.reverseRecOn with
  | nil => exact List.nodup_nil
  | append_singleton blocks count ih =>
    rw [slots_concat]
    refine List.nodup_append.mpr ⟨ih, iota_nodup _ _, ?_⟩
    intro old oldMember new newMember same
    have bounds := mem_slotsFrom oldMember
    have block : new.block = blocks.length := mem_iota newMember
    rw [same] at bounds
    omega

/-- The allocator gives no chunk whose four-fold size would wrap. -/
theorem granted_small {objectSize chunks : Nat} (fits : 10 * 4 ^ chunks ≤ maxObjects objectSize) : 10 * 4 ^ (chunks + 1) < 2 ^ 64 := by
  have limit : maxObjects objectSize ≤ 2 ^ 63 - 1 := Nat.div_le_self _ _
  have few : chunks ≤ 29 := by
    by_contra many
    have grown : 4 ^ 30 ≤ 4 ^ chunks := Nat.pow_le_pow_right (by decide) (by omega)
    omega
  have bound : 4 ^ (chunks + 1) ≤ 4 ^ 30 := Nat.pow_le_pow_right (by decide) (by omega)
  omega

theorem addChunk_grown {objectSize : Nat} {granted : Bool} {system next : System} (grown : Grown system)
    (added : addChunk objectSize granted system = some next) : Grown next := by
  unfold addChunk allocate at added
  split at added
  next permitted =>
    have result := Option.some.inj added
    have small := granted_small (grown.next ▸ permitted.2)
    have power : 4 ^ (system.blocks.length + 1) = 4 * 4 ^ system.blocks.length := Nat.pow_succ'
    have next := grown.next
    have total := grown.total
    subst result
    constructor
    · simp [List.range_succ, next, ← grown.sizes]
    · simp only [UInt64.toNat_mul, List.length_append, List.length_singleton, next]
      rw [show GROWTH_STRATEGY.toNat = 4 from rfl]
      omega
    · simp only [UInt64.toNat_add, List.length_append, List.length_singleton, next]
      omega
    · simp [List.range_succ, ← grown.heads]
  next => exact absurd added (by simp)

private theorem addChunk_partition {objectSize : Nat} {granted : Bool} {system next : System} (grown : Grown system)
    (valid : Partition system) (empty : system.objects.available = []) (added : addChunk objectSize granted system = some next) :
    Partition next ∧ next.objects.available ≠ [] := by
  have after := addChunk_grown grown added
  have every := valid.every
  rw [empty, List.append_nil] at every
  have total := after.total
  unfold addChunk allocate at added
  split at added
  next permitted =>
    have result := Option.some.inj added
    have counts : (slots next.blocks).length = next.blocks.sum := slotsFrom_length 0 _
    have capacity := valid.capacity
    have small := granted_small (grown.next ▸ permitted.2)
    subst result
    have all : (system.outstanding ++ iota ⟨system.blocks.length, 0⟩ system.objects.newBlockSize.toNat).Perm
        (slots (system.blocks ++ [system.objects.newBlockSize.toNat])) := by
      rw [slots_concat]
      exact every.append_right _
    constructor
    · refine { every := all, distinct := all.nodup_iff.mpr (slots_nodup _), capacity := ?_ }
      have before := grown.total
      have size := grown.next
      have power : 4 ^ (system.blocks.length + 1) = 4 * 4 ^ system.blocks.length := Nat.pow_succ'
      rw [slots_concat, List.length_append, ← capacity]
      simp only [iota, UInt64.toNat_add, List.length_map, List.length_range]
      omega
    · apply List.ne_nil_of_length_pos
      have positive : 0 < 4 ^ system.blocks.length := Nat.pow_pos (by decide)
      simp only [iota, List.length_map, List.length_range, grown.next]
      omega
  next => exact absurd added (by simp)

private theorem take_partition {system : System} {objectPtr : Pointer} (valid : Partition system)
    (last : system.objects.available.getLast? = some objectPtr) :
    Partition { system with
      objects := { system.objects with available := system.objects.available.dropLast }
      outstanding := system.outstanding ++ [objectPtr] } := by
  have split : system.objects.available = system.objects.available.dropLast ++ [objectPtr] :=
    (List.dropLast_append_getLast? objectPtr last).symm
  have moved : (system.outstanding ++ [objectPtr] ++ system.objects.available.dropLast).Perm
      (system.outstanding ++ system.objects.available) := by
    rw [List.append_assoc, split, List.dropLast_concat]
    exact List.perm_append_comm.append_left _
  exact { every := moved.trans valid.every, distinct := moved.nodup_iff.mpr valid.distinct, capacity := valid.capacity }

theorem release_partition {system : System} {position : Nat} {object : Pointer} (valid : Partition system)
    (out : system.outstanding[position]? = some object) :
    Partition { system with outstanding := system.outstanding.eraseIdx position, objects := giveBack system.objects object } := by
  obtain ⟨inside, same⟩ := List.getElem?_eq_some_iff.mp out
  have back : (system.outstanding.eraseIdx position ++ (system.objects.available ++ [object])).Perm
      (system.outstanding ++ system.objects.available) := by
    have whole := List.getElem_cons_eraseIdx_perm inside
    rw [same] at whole
    rw [← List.append_assoc]
    exact (List.perm_append_singleton object _).trans (whole.append_right system.objects.available)
  exact { every := back.trans valid.every, distinct := back.nodup_iff.mpr valid.distinct, capacity := valid.capacity }

structure Valid (system : System) : Prop where
  grown : Grown system
  partition : Partition system

theorem initial_valid : Valid {} where
  grown := by constructor <;> decide
  partition := { every := List.Perm.refl _, distinct := List.nodup_nil, capacity := rfl }

theorem Grown.same {system next : System} (grown : Grown system) (blocks : next.blocks = system.blocks)
    (size : next.objects.newBlockSize = system.objects.newBlockSize) (capacity : next.objects.capacity = system.objects.capacity)
    (pool : next.objects.pool = system.objects.pool) : Grown next where
  sizes := by rw [blocks, ← grown.sizes]
  next := by rw [blocks, size, grown.next]
  total := by rw [blocks, capacity, grown.total]
  heads := by rw [blocks, pool, grown.heads]

theorem construct_valid (constructed : Bool) {system : System} (valid : Valid system) (some : system.objects.available ≠ []) :
    ∃ next acquired, construct constructed system = .some (next, acquired) ∧
      Valid { next with outstanding := next.outstanding ++ acquired.toList } := by
  obtain ⟨objectPtr, last⟩ := Option.ne_none_iff_exists'.mp (fun none => some (List.getLast?_eq_none_iff.mp none))
  unfold construct
  rw [last]
  cases constructed with
  | true => exact ⟨_, _, rfl, { grown := valid.grown.same rfl rfl rfl rfl, partition := take_partition valid.partition last }⟩
  | false =>
    refine ⟨_, _, rfl, ?_⟩
    simpa using valid

/-- Whether or not a chunk has to be added, there is a slot to hand out. -/
theorem acquireObject_valid {objectSize : Nat} (granted constructed : Bool) {system : System} (valid : Valid system) :
    ∃ next acquired, acquireObject objectSize granted constructed system = some (next, acquired) ∧
      Valid { next with outstanding := next.outstanding ++ acquired.toList } := by
  unfold acquireObject
  by_cases empty : system.objects.available = []
  · rw [if_pos (by rw [empty]; rfl)]
    cases added : addChunk objectSize granted system with
    | none =>
      refine ⟨_, _, rfl, ?_⟩
      simpa using valid
    | some next =>
      have grown := addChunk_grown valid.grown added
      obtain ⟨partition, filled⟩ := addChunk_partition valid.grown valid.partition empty added
      exact construct_valid constructed { grown, partition } filled
  · rw [if_neg (by simpa using empty)]
    exact construct_valid constructed valid empty

theorem step_valid {objectSize : Nat} (system : System) (event : Event) (valid : Valid system) :
    ∃ next, step objectSize system event = some next ∧ Valid next := by
  cases event with
  | acquire granted constructed =>
    obtain ⟨next, acquired, ran, after⟩ := acquireObject_valid granted constructed valid
    exact ⟨_, by rw [step, ran]; rfl, after⟩
  | release position =>
    cases out : system.outstanding[position]? with
    | none => exact ⟨system, by simp only [step, out], valid⟩
    | some object =>
      refine ⟨_, ?_, Valid.mk ?_ (release_partition valid.partition out)⟩
      · simp only [step, out]
      · exact valid.grown.same rfl rfl rfl rfl

/-- No history of a pool leads to undefined behaviour, and after each every slot is out or available, once. -/
theorem objectPool_partition (objectSize : Nat) (events : List Event) :
    ∃ final, events.foldlM (step objectSize) {} = some final ∧ Partition final := by
  obtain ⟨final, ran, valid⟩ := Runs.foldlM_succeeds step_valid events initial_valid
  exact ⟨final, ran, valid.partition⟩

end FinanceTech.Proofs.PoolSlots
