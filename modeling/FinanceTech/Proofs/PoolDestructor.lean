import FinanceTech.Proofs.PoolSlots

/-! The destructor of the pool. It frees the chunks with the sizes they were asked
for, but what it asserts of the number of available objects is the sum of chunks
that double, and chunks grow fourfold. -/

namespace FinanceTech.Proofs.PoolDestructor

open Memory Library PoolSlots

variable {objectSize : Nat} {system next : System} {event : Event}

/-- What the allocator gave: the start of each block and the objects there is room for. -/
def allocations (blocks : List Nat) : List (Pointer × Nat) := blocks.mapIdx fun block count => (⟨block, 0⟩, count)

def sized (call : Pointer × UInt64) : Pointer × Nat := (call.1, call.2.toNat)

private theorem freeChunk_loop (chunks : Nat) (fits : 10 * 4 ^ chunks < 2 ^ 64) :
    let loop := ((List.range chunks).map fun block => (⟨block, 0⟩ : Pointer)).foldl freeChunk ([], DEFAULT_CHUNK_SIZE)
    loop.1.map sized = (List.range chunks).map (fun block => (⟨block, 0⟩, 10 * 4 ^ block)) ∧ loop.2.toNat = 10 * 4 ^ chunks := by
  induction chunks with
  | zero => exact ⟨rfl, rfl⟩
  | succ chunks ih =>
    have power : 4 ^ (chunks + 1) = 4 * 4 ^ chunks := Nat.pow_succ'
    obtain ⟨freed, size⟩ := ih (by omega)
    simp only [List.range_succ, List.map_append, List.foldl_append, List.map_cons, List.map_nil, List.foldl_cons, List.foldl_nil]
    constructor
    · simp only [freeChunk, List.map_append, freed, List.map_cons, List.map_nil, sized, size]
    · simp only [freeChunk, UInt64.toNat_mul, size]
      rw [show GROWTH_STRATEGY.toNat = 4 from rfl]
      omega

private theorem deallocations_allocated (grown : Grown system) : (deallocations system.objects).map sized = allocations system.blocks := by
  have fits : 10 * 4 ^ system.blocks.length < 2 ^ 64 := grown.next ▸ system.objects.newBlockSize.toNat_lt
  have freed := (freeChunk_loop system.blocks.length fits).1
  rw [← grown.heads] at freed
  apply freed.trans
  apply List.ext_getElem
  · simp [allocations]
  · intro block inside _
    have sizes : ∀ (place : Nat) (within : place < system.blocks.length), system.blocks[place] = 10 * 4 ^ place := by
      intro place within
      have same := congrArg (·[place]?) grown.sizes
      simpa [within] using same
    simp only [List.length_map, List.length_range] at inside
    simp [allocations, sizes block inside]

private theorem few_chunks (grown : Grown system) : system.blocks.length ≤ 30 := by
  have fits : 10 * 4 ^ system.blocks.length < 2 ^ 64 := grown.next ▸ system.objects.newBlockSize.toNat_lt
  by_contra many
  have power : 4 ^ 31 ≤ 4 ^ system.blocks.length := Nat.pow_le_pow_right (by decide) (by omega)
  omega

private theorem assertedSize_eq {chunks : Nat} (few : chunks ≤ 30) : assertedSize chunks = 10 * (2 ^ chunks - 1) := by
  have small : 2 ^ chunks ≤ 2 ^ 30 := Nat.pow_le_pow_right (by decide) few
  have ten : double DEFAULT_CHUNK_SIZE.toNat = 10 := WholeFloat.round_exact (by decide) (by decide)
  have power : double (2 ^ chunks - 1) = 2 ^ chunks - 1 := WholeFloat.round_exact (by decide) (by omega)
  rw [assertedSize, ten, power]
  exact WholeFloat.round_exact (by decide) (by omega)

private theorem growth_agrees {chunks total : Nat} (grown : 3 * total + 10 = 10 * 4 ^ chunks) : total = 10 * (2 ^ chunks - 1) ↔ chunks ≤ 1 := by
  have square : 4 ^ chunks = 2 ^ chunks * 2 ^ chunks := by rw [← Nat.mul_pow]
  constructor
  · intro same
    by_contra many
    have four : 2 ^ 2 ≤ 2 ^ chunks := Nat.pow_le_pow_right (by decide) (by omega)
    have more : 4 * 2 ^ chunks ≤ 2 ^ chunks * 2 ^ chunks := Nat.mul_le_mul_right _ four
    omega
  · intro few
    cases Nat.le_one_iff_eq_zero_or_eq_one.mp few with
    | inl none =>
      subst none
      omega
    | inr single =>
      subst single
      omega

private theorem returned_available (valid : Valid system) (returned : system.outstanding = []) :
    system.objects.available.length = system.objects.capacity.toNat := by
  have every := valid.partition.every.length_eq
  rw [returned, List.nil_append] at every
  rw [every, valid.partition.capacity]

theorem allReturned_iff (valid : Valid system) (returned : system.outstanding = []) :
    allReturned system.objects = true ↔ system.blocks.length ≤ 1 := by
  have few := few_chunks valid.grown
  have chunks : system.objects.pool.length = system.blocks.length := by
    rw [valid.grown.heads, List.length_map, List.length_range]
  have small : 2 ^ system.blocks.length ≤ 2 ^ 30 := Nat.pow_le_pow_right (by decide) few
  rw [allReturned, decide_eq_true_eq, chunks, assertedSize_eq few, returned_available valid returned,
    ← growth_agrees valid.grown.total]
  exact WholeFloat.round_eq_iff (by decide) (by omega)

/-- A chunk is asked for, and the allocator has it. -/
def Grows (objectSize : Nat) (system : System) : Event → Prop
  | .acquire granted _ =>
    system.objects.available = [] ∧ granted = true ∧ system.objects.newBlockSize.toNat ≤ maxObjects objectSize
  | .release _ => False

theorem construct_blocks {constructed : Bool} {acquired : Option Pointer} (ran : construct constructed system = some (next, acquired)) :
    next.blocks = system.blocks := by
  simp only [construct, Option.bind_eq_bind, Option.bind_eq_some_iff] at ran
  obtain ⟨objectPtr, _, ran⟩ := ran
  cases constructed with
  | true =>
    cases ran
    rfl
  | false =>
    cases ran
    rfl

theorem step_blocks (moved : step objectSize system event = some next) :
    Grows objectSize system event ∧ next.blocks.length = system.blocks.length + 1 ∨
      ¬ Grows objectSize system event ∧ next.blocks = system.blocks := by
  cases event with
  | release position =>
    right
    refine ⟨id, ?_⟩
    unfold step at moved
    cases out : system.outstanding[position]? with
    | none =>
      simp only [out, Option.some.injEq] at moved
      rw [moved]
    | some object =>
      simp only [out, Option.some.injEq] at moved
      rw [← moved]
  | acquire granted constructed =>
    simp only [step, Option.bind_eq_bind, Option.bind_eq_some_iff] at moved
    obtain ⟨⟨after, acquired⟩, ran, same⟩ := moved
    cases same
    unfold acquireObject at ran
    by_cases empty : system.objects.available = []
    · rw [if_pos (by rw [empty]; rfl)] at ran
      by_cases given : granted = true ∧ system.objects.newBlockSize.toNat ≤ maxObjects objectSize
      · left
        refine ⟨⟨empty, given⟩, ?_⟩
        simp only [addChunk, allocate, if_pos given, Option.bind_eq_bind, Option.bind_some, Option.pure_def] at ran
        rw [construct_blocks ran]
        exact List.length_append
      · right
        refine ⟨fun grows => given grows.2, ?_⟩
        simp only [addChunk, allocate, if_neg given, Option.bind_eq_bind, Option.bind_none, Option.some.injEq, Prod.mk.injEq] at ran
        rw [← ran.1]
    · right
      rw [if_neg (by simpa using empty)] at ran
      have same := construct_blocks ran
      exact ⟨fun grows => empty grows.1, same⟩

/-- No object is asked for while ten are out, unless there is no memory for forty more. -/
def Covered (objectSize : Nat) (system : System) : Event → Prop
  | .acquire granted _ => system.outstanding.length = 10 → ¬ (granted = true ∧ 40 ≤ maxObjects objectSize)
  | .release _ => True

instance (objectSize : Nat) (system : System) : DecidablePred (Covered objectSize system)
  | .acquire granted _ => inferInstanceAs (Decidable (_ → ¬ (granted = true ∧ _)))
  | .release _ => .isTrue trivial

/-- With one chunk there the next one is the one that has to be kept from coming. -/
theorem covered_iff (valid : Valid system) (few : system.blocks.length ≤ 1) (event : Event) :
    Covered objectSize system event ↔ ¬ (system.blocks.length = 1 ∧ Grows objectSize system event) := by
  have total := valid.grown.total
  have size := valid.grown.next
  have every := valid.partition.every.length_eq
  rw [List.length_append, ← valid.partition.capacity] at every
  cases event with
  | release position => exact ⟨fun _ both => both.2, fun _ => trivial⟩
  | acquire granted constructed =>
    cases Nat.le_one_iff_eq_zero_or_eq_one.mp few with
    | inl none =>
      rw [none] at total ⊢
      refine ⟨fun _ both => absurd both.1 (by decide), fun _ ten => ?_⟩
      omega
    | inr single =>
      rw [single] at total size ⊢
      have empty : system.objects.available = [] ↔ system.outstanding.length = 10 := by
        rw [← List.length_eq_zero_iff]
        omega
      simp only [Covered, Grows, empty, size, true_and, not_and]
      rfl

theorem single_chunk_iff {events : List Event} {final : System} (ran : events.foldlM (step objectSize) {} = some final) :
    final.blocks.length ≤ 1 ↔ Runs.AtEveryStepM (step objectSize) (Covered objectSize) {} events := by
  have kept : ∀ system event next, step objectSize system event = some next → Valid system → Valid next := by
    intro system event next moved valid
    obtain ⟨after, same, holds⟩ := step_valid system event valid
    cases same.symm.trans moved
    exact holds
  rw [Runs.atEveryStepM_iff]
  refine Runs.foldlM_final_iff (fun system => system.blocks.length ≤ 1) ⟨initial_valid, Nat.zero_le _⟩ kept ?_ ?_ ran
  · intro system event next valid moved few
    rw [covered_iff valid few event]
    cases step_blocks moved with
    | inl grown =>
      obtain ⟨grows, more⟩ := grown
      constructor
      · intro still both
        omega
      · intro apart
        have other : system.blocks.length ≠ 1 := fun single => apart ⟨single, grows⟩
        omega
    | inr same => exact ⟨fun _ both => same.1 both.2, fun _ => same.2 ▸ few⟩
  · intro system event next _ moved many few
    apply many
    cases step_blocks moved with
    | inl grown => omega
    | inr same => exact same.2 ▸ few

/-- Once all objects are back, the assertion holds and every chunk is freed with its size exactly where
no object was asked for, with memory to be had, while ten were out. -/
theorem destructor_iff (objectSize : Nat) (events : List Event) {final : System}
    (ran : events.foldlM (step objectSize) {} = some final) (returned : final.outstanding = []) :
    (∃ calls, destroy final.objects = some calls ∧ calls.map sized = allocations final.blocks) ↔
      Runs.AtEveryStepM (step objectSize) (Covered objectSize) {} events := by
  obtain ⟨reached, same, valid⟩ := Runs.foldlM_succeeds step_valid events initial_valid
  cases same.symm.trans ran
  rw [← single_chunk_iff ran, ← allReturned_iff valid returned]
  constructor
  · rintro ⟨calls, freed, _⟩
    by_contra failed
    rw [destroy, if_neg failed] at freed
    cases freed
  · intro holds
    exact ⟨_, if_pos holds, deallocations_allocated valid.grown⟩

theorem destructor_iff_one_object :
    ∃ final, [Event.acquire true true, .release 0].foldlM (step 8) {} = some final ∧
      ∃ calls, destroy final.objects = some calls ∧ calls.map sized = allocations final.blocks :=
  ⟨_, rfl, (destructor_iff 8 [.acquire true true, .release 0] rfl rfl).mpr (by decide)⟩

def elevenObjects : List Event := List.replicate 11 (.acquire true true) ++ List.replicate 11 (.release 0)

/-- The eleventh object takes a chunk of forty. All fifty are back in the end, and thirty are asserted. -/
theorem destructor_eleven_objects : ¬ ∀ (objectSize : Nat) (events : List Event) (final : System),
    events.foldlM (step objectSize) {} = some final → final.outstanding = [] →
      ∃ calls, destroy final.objects = some calls ∧ calls.map sized = allocations final.blocks := by
  intro all
  have failed : (elevenObjects.foldlM (step 8) {}).map (fun final : System => (final.outstanding, destroy final.objects)) =
      some ([], none) := by decide
  obtain ⟨final, ran, ends⟩ := Option.map_eq_some_iff.mp failed
  obtain ⟨calls, freed, _⟩ := all 8 elevenObjects final ran (congrArg Prod.fst ends)
  cases freed.symm.trans (congrArg Prod.snd ends)

end FinanceTech.Proofs.PoolDestructor
