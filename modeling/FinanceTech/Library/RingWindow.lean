import Mathlib.Algebra.Ring.Nat
import Mathlib.Data.List.Infix
import Mathlib.Data.UInt

/-! Positions of an unbounded log that live in a ring of slots: a position has
the slot of its remainder. Indices into the ring are machine words that a mask
keeps below a power of two. Positions less than one round apart never share a
slot, so what is written at the end of a log leaves its recent items alone. -/

namespace FinanceTech.Library.RingWindow

universe u

variable {α : Type u}

/-! ### Positions -/

theorem slot_ne {capacity first second : Nat} (earlier : first < second) (near : second < first + capacity) :
    first % capacity ≠ second % capacity := by
  intro same
  have whole : (second - first) % capacity = 0 := Nat.sub_mod_eq_zero_of_mod_eq same.symm
  rw [Nat.mod_eq_of_lt (by omega)] at whole
  omega

/-- Two positions at most one round apart share a slot only if they are equal
or exactly one round apart. -/
theorem slot_eq_iff {capacity first second : Nat} (ordered : first ≤ second) (near : second ≤ first + capacity) :
    first % capacity = second % capacity ↔ second = first ∨ second = first + capacity := by
  constructor
  · intro same
    by_contra other
    obtain ⟨apart, within⟩ := not_or.mp other
    exact slot_ne (by omega) (by omega) same
  · rintro (rfl | rfl)
    · rfl
    · exact (Nat.add_mod_right _ _).symm

/-! ### Masked indices -/

def mask (index capacity : UInt32) : UInt32 := index &&& (capacity - 1)

/-- A nonzero word without a bit in common with its predecessor. -/
def PowerOfTwo (capacity : UInt32) : Prop := capacity ≠ 0 ∧ capacity &&& (capacity - 1) = 0

instance (capacity : UInt32) : Decidable (PowerOfTwo capacity) := inferInstanceAs (Decidable (_ ∧ _))

theorem toNat_pred {capacity : UInt32} (nonzero : capacity ≠ 0) : (capacity - 1).toNat = capacity.toNat - 1 := by
  apply UInt32.toNat_sub_of_le
  rw [UInt32.le_iff_toNat_le]
  have positive : capacity.toNat ≠ 0 := fun zero => nonzero (UInt32.toNat_inj.mp zero)
  exact Nat.one_le_iff_ne_zero.mpr positive

theorem PowerOfTwo.exponent {capacity : UInt32} (power : PowerOfTwo capacity) : ∃ bits, capacity.toNat = 2 ^ bits := by
  obtain ⟨nonzero, disjoint⟩ := power
  apply Nat.ne_zero_and_sub_one_eq_zero_iff_isPowerOfTwo.mp
  refine ⟨fun zero => nonzero (UInt32.toNat_inj.mp zero), ?_⟩
  rw [← toNat_pred nonzero, ← UInt32.toNat_and, disjoint]
  rfl

theorem PowerOfTwo.positive {capacity : UInt32} (power : PowerOfTwo capacity) : 0 < capacity.toNat := by
  obtain ⟨bits, exponent⟩ := power.exponent
  rw [exponent]
  exact Nat.two_pow_pos bits

theorem toNat_mask {capacity : UInt32} (power : PowerOfTwo capacity) (index : UInt32) :
    (mask index capacity).toNat = index.toNat % capacity.toNat := by
  obtain ⟨bits, exponent⟩ := power.exponent
  rw [mask, UInt32.toNat_and, toNat_pred power.1, exponent, Nat.and_two_pow_sub_one_eq_mod]

/-- The index of the slot of a position. -/
def IndexOf (capacity index : UInt32) (position : Nat) : Prop := index.toNat = position % capacity.toNat

section Index

variable {capacity index other : UInt32} {position later : Nat}

theorem IndexOf.below (indexed : IndexOf capacity index position) (power : PowerOfTwo capacity) :
    index.toNat < capacity.toNat := by
  rw [indexed]
  exact Nat.mod_lt _ power.positive

theorem IndexOf.next (indexed : IndexOf capacity index position) (power : PowerOfTwo capacity) :
    IndexOf capacity (mask (index + 1) capacity) (position + 1) := by
  have below := indexed.below power
  have bound := capacity.toNat_lt
  have sum : (index + 1).toNat = index.toNat + 1 := by
    rw [UInt32.toNat_add, UInt32.toNat_one]
    exact Nat.mod_eq_of_lt (by omega)
  unfold IndexOf at indexed ⊢
  rw [toNat_mask power, sum, indexed, Nat.mod_add_mod]

/-- Equal indices of positions at most one round apart. -/
theorem IndexOf.eq_iff (indexed : IndexOf capacity index position) (second : IndexOf capacity other later)
    (ordered : position ≤ later) (near : later ≤ position + capacity.toNat) :
    index = other ↔ later = position ∨ later = position + capacity.toNat := by
  rw [← UInt32.toNat_inj, indexed, second]
  exact slot_eq_iff ordered near

theorem PowerOfTwo.half (power : PowerOfTwo capacity) : capacity.toNat ≤ 2 ^ 31 := by
  obtain ⟨bits, exponent⟩ := power.exponent
  have bound := capacity.toNat_lt
  rw [exponent] at bound ⊢
  exact Nat.pow_le_pow_right (by decide) (Nat.le_of_lt_succ ((Nat.pow_lt_pow_iff_right (by decide)).mp bound))

/-- The difference of two indices, as machine words, is the distance of their
positions exactly when it does not wrap. -/
theorem IndexOf.sub_eq_iff (indexed : IndexOf capacity index position) (second : IndexOf capacity other later)
    (power : PowerOfTwo capacity) (ordered : position ≤ later) (near : later < position + capacity.toNat) :
    (other - index).toNat = later - position ↔ index ≤ other := by
  have low := indexed.below power
  have high := second.below power
  have half := power.half
  rw [UInt32.le_iff_toNat_le]
  constructor
  · intro same
    by_contra wrapped
    rw [UInt32.toNat_sub] at same
    omega
  · intro unwrapped
    rw [UInt32.toNat_sub_of_le _ _ (UInt32.le_iff_toNat_le.mpr unwrapped)]
    have slot : (position + (other.toNat - index.toNat)) % capacity.toNat = later % capacity.toNat := by
      rw [Nat.add_mod, ← indexed, ← second, Nat.mod_eq_of_lt (by omega : other.toNat - index.toNat < capacity.toNat),
        Nat.add_sub_cancel' unwrapped, Nat.mod_eq_of_lt high]
    by_contra apart
    rcases Nat.lt_or_gt_of_ne (fun same => apart (by omega) : position + (other.toNat - index.toNat) ≠ later) with before | behind
    · exact slot_ne before (by omega) slot
    · exact slot_ne behind (by omega) slot.symm

/-- It is never the capacity. -/
theorem IndexOf.sub_ne (indexed : IndexOf capacity index position) (second : IndexOf capacity other later)
    (power : PowerOfTwo capacity) : other - index ≠ capacity := by
  have low := indexed.below power
  have high := second.below power
  have half := power.half
  intro same
  have distance := congrArg UInt32.toNat same
  rw [UInt32.toNat_sub] at distance
  omega

end Index

/-! ### Windows -/

/-- A prefix takes the next item along. -/
theorem prefix_concat {first whole : List α} {item : α} (inside : first <+: whole) (next : whole[first.length]? = some item) :
    first ++ [item] <+: whole := by
  obtain ⟨below, rfl⟩ := List.getElem?_eq_some_iff.mp next
  exact List.concat_get_prefix inside below

/-- The slots still have what the log has from this position on. -/
def Window (capacity : Nat) (slots log : List α) (first : Nat) : Prop :=
  ∀ position item, first ≤ position → log[position]? = some item → slots[position % capacity]? = some item

section Window

variable {capacity first : Nat} {slots log : List α}

theorem Window.drop (window : Window capacity slots log first) {later : Nat} (ordered : first ≤ later) :
    Window capacity slots log later := fun position item reached => window position item (ordered.trans reached)

/-- A write to the slot of another position. -/
theorem Window.set (window : Window capacity slots log first) {place : Nat}
    (apart : ∀ position, first ≤ position → position < log.length → place % capacity ≠ position % capacity) (value : α) :
    Window capacity (slots.set (place % capacity) value) log first := by
  intro position item reached present
  have inside : position < log.length := (List.getElem?_eq_some_iff.mp present).1
  rw [List.getElem?_set_ne (apart position reached inside)]
  exact window position item reached present

/-- The next item of the log is in its slot. -/
theorem Window.append (window : Window capacity slots log first) {item : α}
    (stored : slots[log.length % capacity]? = some item) : Window capacity slots (log ++ [item]) first := by
  intro position value reached present
  rcases lt_or_ge position log.length with before | beyond
  · rw [List.getElem?_append_left before] at present
    exact window position value reached present
  · have inside := (List.getElem?_eq_some_iff.mp present).1
    rw [List.length_append, List.length_singleton] at inside
    have last : position = log.length := by omega
    rw [last, List.getElem?_concat_length] at present
    rw [last, ← present]
    exact stored

end Window

end FinanceTech.Library.RingWindow
