import Mathlib.Algebra.Order.Ring.Nat
import Mathlib.Data.List.Induction
import Mathlib.Data.Nat.Bitwise

/-! Numbers as their bits, the highest first, and lists of bits cut into groups
of one size, the last of which may be shorter. -/

namespace FinanceTech.Library.BitGroups

universe u

variable {α : Type u}

/-- The rest of a list after some elements wait for their group to fill. -/
def cutFrom (size : Nat) : List α → List α → List (List α)
  | [], waiting => if waiting.isEmpty then [] else [waiting]
  | item :: rest, waiting =>
    if waiting.length = size then waiting :: cutFrom size rest [item] else cutFrom size rest (waiting ++ [item])

def cut (size : Nat) (items : List α) : List (List α) := cutFrom size items []

@[simp] theorem cut_nil (size : Nat) : cut size ([] : List α) = [] := rfl

theorem cutFrom_short {size : Nat} (items waiting : List α) (nonempty : waiting ++ items ≠ [])
    (short : waiting.length + items.length ≤ size) : cutFrom size items waiting = [waiting ++ items] := by
  induction items generalizing waiting with
  | nil =>
    have filled : waiting ≠ [] := by simpa using nonempty
    simp [cutFrom, filled]
  | cons item rest ih =>
    simp only [List.length_cons] at short
    rw [cutFrom, if_neg (by omega), ih (waiting ++ [item]) (by simp) (by simp; omega)]
    simp

theorem cutFrom_append {size : Nat} (first items waiting : List α) (room : waiting.length + first.length ≤ size) :
    cutFrom size (first ++ items) waiting = cutFrom size items (waiting ++ first) := by
  induction first generalizing waiting with
  | nil => simp
  | cons item rest ih =>
    simp only [List.length_cons] at room
    rw [List.cons_append, cutFrom, if_neg (by omega), ih (waiting ++ [item]) (by simp; omega)]
    simp

theorem cutFrom_full {size : Nat} (items waiting : List α) (full : waiting.length = size) (positive : 0 < size) :
    cutFrom size items waiting = waiting :: cut size items := by
  have filled : waiting ≠ [] := List.ne_nil_of_length_pos (by omega)
  cases items with
  | nil => simp [cutFrom, filled]
  | cons item rest =>
    rw [cutFrom, if_pos full, cut, cutFrom, if_neg (by simp; omega)]
    rfl

/-- A whole group in front is cut off by itself. -/
theorem cut_append {size : Nat} (first items : List α) (full : first.length = size) (positive : 0 < size) :
    cut size (first ++ items) = first :: cut size items := by
  rw [cut, cutFrom_append first items [] (by simp [full])]
  exact cutFrom_full items first full positive

theorem cut_short {size : Nat} (items : List α) (nonempty : items ≠ []) (short : items.length ≤ size) : cut size items = [items] :=
  cutFrom_short items [] nonempty (by simpa using short)

theorem cutFrom_length {size : Nat} (positive : 0 < size) (items waiting : List α) (bound : waiting.length ≤ size) :
    (cutFrom size items waiting).length = (waiting.length + items.length + size - 1) / size := by
  induction items generalizing waiting with
  | nil =>
    cases waiting with
    | nil => simp [cutFrom, Nat.div_eq_of_lt (Nat.sub_lt positive Nat.one_pos)]
    | cons first rest =>
      have whole : (first :: rest).length + ([] : List α).length + size - 1 = rest.length + size := by
        simp only [List.length_cons, List.length_nil]
        omega
      rw [whole, Nat.add_div_right _ positive, Nat.div_eq_of_lt bound]
      simp [cutFrom]
  | cons item rest ih =>
    rw [cutFrom]
    by_cases full : waiting.length = size
    · have turn : waiting.length + (item :: rest).length + size - 1 = ([item].length + rest.length + size - 1) + size := by
        simp only [List.length_cons, List.length_nil]
        omega
      rw [if_pos full, List.length_cons, ih [item] positive, turn, Nat.add_div_right _ positive]
    · have turn : waiting.length + (item :: rest).length = (waiting ++ [item]).length + rest.length := by
        simp only [List.length_cons, List.length_append, List.length_nil]
        omega
      rw [if_neg full, ih (waiting ++ [item]) (by simp; omega), turn]

theorem cut_length {size : Nat} (positive : 0 < size) (items : List α) :
    (cut size items).length = (items.length + size - 1) / size := by
  have whole := cutFrom_length positive items [] (Nat.zero_le size)
  rwa [List.length_nil, Nat.zero_add] at whole

/-- Groups filled up with one value give the list back, followed by less than a group of that value. -/
theorem cutFrom_filled {size : Nat} (filler : α) (items waiting : List α) (bound : waiting.length ≤ size)
    (positive : 0 < size) : ∃ spare, spare < size ∧
      (cutFrom size items waiting).flatMap (fun group => group ++ List.replicate (size - group.length) filler) =
        waiting ++ items ++ List.replicate spare filler := by
  induction items generalizing waiting with
  | nil =>
    cases waiting with
    | nil => exact ⟨0, positive, by simp [cutFrom]⟩
    | cons first rest => exact ⟨size - (first :: rest).length, by simp; omega, by simp [cutFrom]⟩
  | cons item rest ih =>
    rw [cutFrom]
    by_cases full : waiting.length = size
    · obtain ⟨spare, less, same⟩ := ih [item] positive
      refine ⟨spare, less, ?_⟩
      rw [if_pos full, List.flatMap_cons, same, full]
      simp
    · obtain ⟨spare, less, same⟩ := ih (waiting ++ [item]) (by simp; omega)
      refine ⟨spare, less, ?_⟩
      rw [if_neg full, same]
      simp

/-! The number a list of bits stands for, and the bits of a number. -/

def value (bits : List Bool) : Nat := bits.foldl (fun number bit => 2 * number + bit.toNat) 0

def bitsOf (count number : Nat) : List Bool := (List.range count).reverse.map number.testBit

@[simp] theorem value_nil : value [] = 0 := rfl

theorem value_concat (bits : List Bool) (bit : Bool) : value (bits ++ [bit]) = 2 * value bits + bit.toNat := by
  simp [value]

@[simp] theorem bitsOf_length (count number : Nat) : (bitsOf count number).length = count := by simp [bitsOf]

theorem bitsOf_succ (count number : Nat) : bitsOf (count + 1) number = bitsOf count (number / 2) ++ [number.testBit 0] := by
  have shifted : ∀ position, number.testBit (position + 1) = (number / 2).testBit position := fun position => Nat.testBit_succ number position
  rw [bitsOf, List.range_succ_eq_map, List.reverse_cons, List.map_append, ← List.map_reverse, List.map_map]
  simp only [Function.comp_def, shifted]
  rfl

theorem value_lt (bits : List Bool) : value bits < 2 ^ bits.length := by
  induction bits using List.reverseRecOn with
  | nil => simp
  | append_singleton bits bit ih =>
    have small := Bool.toNat_lt bit
    rw [value_concat, List.length_append, List.length_singleton, Nat.pow_succ]
    omega

theorem value_bitsOf {count number : Nat} (fits : number < 2 ^ count) : value (bitsOf count number) = number := by
  induction count generalizing number with
  | zero =>
    have : number = 0 := by simpa using fits
    simp [this, bitsOf]
  | succ count ih =>
    rw [bitsOf_succ, value_concat, ih (by rw [Nat.pow_succ] at fits; omega), Nat.testBit_zero]
    rcases Nat.mod_two_eq_zero_or_one number with even | odd
    · simp [even]; omega
    · simp [odd]; omega

theorem bitsOf_value (bits : List Bool) : bitsOf bits.length (value bits) = bits := by
  induction bits using List.reverseRecOn with
  | nil => rfl
  | append_singleton bits bit ih =>
    have half : (2 * value bits + bit.toNat) / 2 = value bits := by
      have small := Bool.toNat_lt bit
      omega
    have last : (2 * value bits + bit.toNat).testBit 0 = bit := by cases bit <;> simp [Nat.testBit_zero]
    rw [List.length_append, List.length_singleton, bitsOf_succ, value_concat, half, ih, last]

/-- Zeros behind the last bit shift the number. -/
theorem value_filled (bits : List Bool) (count : Nat) :
    value (bits ++ List.replicate count false) = value bits * 2 ^ count := by
  induction count with
  | zero => simp
  | succ count ih =>
    rw [List.replicate_succ', ← List.append_assoc, value_concat, ih, Nat.pow_succ, Nat.mul_comm 2]
    exact Nat.mul_assoc _ _ _

end FinanceTech.Library.BitGroups
