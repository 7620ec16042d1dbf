import FinanceTech.FlatLevelMap
import FinanceTech.Library.Runs
import Mathlib.Algebra.Order.Ring.Int

/-! The array of a side. Nothing in an update keeps a new level out of a full
one, and apart from that no access leaves it, whatever prices are compared. -/

namespace FinanceTech.Proofs.FlatSideBounds
open List Library FlatLevelMap

theorem int32_of_lt {index : Nat} (small : index < 2 ^ 31) : int32 index = index := by
  apply Int.bmod_eq_of_le
  · omega
  · omega

theorem int32_neg {index : Nat} (large : 2 ^ 31 ≤ index) (below : index < 2 ^ 32) : int32 index < 0 := by
  apply (Int.bmod_neg_iff ?_ ?_).mpr
  · omega
  · omega
  · omega

private theorem bmod_le_self (index width : Nat) : Int.bmod index width ≤ index := by
  have smaller : ((index % width : Nat) : Int) ≤ index := Int.ofNat_le.mpr (Nat.mod_le _ _)
  rw [Int.natCast_emod] at smaller
  have reduced := Int.bmod_eq_emod index width
  split at reduced <;> omega

/-- A conversion that is not negative does not lead further than the index. -/
theorem int32_toNat_le (index : Nat) : (int32 index).toNat ≤ index := Int.toNat_le.mpr (bmod_le_self index _)

variable {Price Quantity : Type} {isBid : Bool} {maxLevels : Nat} {side : FlatSide Price Quantity isBid}

structure Inside (maxLevels : Nat) (side : FlatSide Price Quantity isBid) : Prop where
  allocated : side.lvls.length = maxLevels
  bound : side.size ≤ maxLevels

theorem Inside.fits (inside : Inside maxLevels side) : side.size ≤ side.lvls.length := by
  rw [inside.allocated]
  exact inside.bound

theorem new_inside [Zero Price] [Zero Quantity] (maxLevels : Nat) :
    Inside maxLevels (FlatSide.new maxLevels : FlatSide Price Quantity isBid) := ⟨length_replicate, Nat.zero_le _⟩

variable [LT Price] [DecidableLT Price] [BEq Price]

/-- The index of a level, or a negative one. -/
theorem findPrice_within (inside : Inside maxLevels side) (price : Price) :
    ∃ idx, side.findPrice price = some idx ∧ (0 ≤ idx → idx.toNat < side.size) := by
  obtain ⟨found, ended, below⟩ := Slots.find_within inside.fits (Nat.lt_succ_self (side.size - 0))
  refine ⟨found.elim (-1) int32, congrArg (Option.map _) ended, fun positive => ?_⟩
  cases found with
  | none => cases positive
  | some place =>
    rw [Option.elim_some]
    exact Nat.lt_of_le_of_lt (int32_toNat_le place) (below place rfl)

omit [BEq Price] in
private theorem findInsertPos_within (inside : Inside maxLevels side) (price : Price) :
    ∃ pos, side.findInsertPos price = some pos ∧ pos ≤ side.size :=
  Slots.search_within (Nat.zero_le _) inside.fits (Nat.lt_succ_self (side.size - 0))

variable [BEq Quantity] [Zero Quantity]

/-- The update of a price that is not found in a full array. -/
def Overfull (maxLevels : Nat) (side : FlatSide Price Quantity isBid) (update : Price × Quantity) : Prop :=
  (update.2 == 0) = false ∧ side.size = maxLevels ∧ (side.findPrice update.1).any (fun idx => decide (idx < 0)) = true

private theorem update_found (inside : Inside maxLevels side) {price : Price} {idx : Int} (index : side.findPrice price = some idx)
    (found : 0 ≤ idx) (live : idx.toNat < side.size) (qty : Quantity) :
    ∃ next, side.update price qty = some next ∧ Inside maxLevels next := by
  have fits := inside.fits
  cases empty : qty == 0 with
  | true =>
    have window : idx.toNat + 1 + (side.size - (idx.toNat + 1)) ≤ side.lvls.length := by omega
    obtain ⟨lvls, closed, length⟩ := Slots.shiftDown_within (Nat.succ_pos idx.toNat) window
    refine ⟨⟨lvls, side.size - 1⟩, ?_, length.trans inside.allocated, Nat.le_trans (Nat.sub_le _ _) inside.bound⟩
    simp only [FlatSide.update, index, found, empty, closed, if_true, Option.bind_eq_bind, Option.bind_some]
  | false =>
    have within : idx.toNat < side.lvls.length := Nat.lt_of_lt_of_le live fits
    have read := getElem?_eq_getElem within
    refine ⟨{ side with lvls := side.lvls.set idx.toNat { side.lvls[idx.toNat] with qty } }, ?_, length_set.trans inside.allocated,
      inside.bound⟩
    simp only [FlatSide.update, Slots.store, index, found, empty, read, within, if_true, Option.bind_eq_bind, Option.bind_some,
      Bool.false_eq_true, if_false]

private theorem update_new (inside : Inside maxLevels side) {price : Price} {idx : Int} (index : side.findPrice price = some idx)
    (absent : ¬ 0 ≤ idx) {qty : Quantity} (space : (qty == 0) = false → side.size < side.lvls.length) :
    ∃ next, side.update price qty = some next ∧ Inside maxLevels next := by
  cases empty : qty == 0 with
  | true =>
    refine ⟨side, ?_, inside⟩
    simp only [FlatSide.update, index, absent, empty, if_true, if_false, Option.bind_eq_bind, Option.bind_some]
  | false =>
    obtain ⟨pos, place, ordered⟩ := findInsertPos_within inside price
    obtain ⟨lvls, opened, length⟩ := Slots.insert_within ordered (space empty) (⟨price, qty⟩ : PriceLevel Price Quantity)
    refine ⟨⟨lvls, side.size + 1⟩, ?_, length.trans inside.allocated, inside.allocated ▸ space empty⟩
    obtain ⟨moved, shifted, stored⟩ := Option.bind_eq_some_iff.mp opened
    simp only [FlatSide.update, index, absent, empty, place, shifted, stored, if_false, Option.bind_eq_bind, Option.bind_some,
      Bool.false_eq_true]

private theorem update_within (inside : Inside maxLevels side) {price : Price} {qty : Quantity} (room : ¬ Overfull maxLevels side (price, qty)) :
    ∃ next, side.update price qty = some next ∧ Inside maxLevels next := by
  obtain ⟨idx, index, below⟩ := findPrice_within inside price
  by_cases found : 0 ≤ idx
  · exact update_found inside index found (below found) qty
  · refine update_new inside index found fun positive => ?_
    have full : side.size ≠ maxLevels := by
      intro full
      refine room ⟨positive, full, ?_⟩
      rw [index]
      exact decide_eq_true (Int.not_le.mp found)
    have fits := inside.fits
    have allocated := inside.allocated
    omega

theorem update_overfull (inside : Inside maxLevels side) {price : Price} {qty : Quantity} (full : Overfull maxLevels side (price, qty)) :
    side.update price qty = none := by
  obtain ⟨empty, size, negative⟩ := full
  obtain ⟨idx, index, -⟩ := findPrice_within inside price
  obtain ⟨pos, place, ordered⟩ := findInsertPos_within inside price
  obtain ⟨allocated, bound⟩ := inside
  have found : ¬ 0 ≤ idx := by
    rw [index] at negative
    exact Int.not_le.mpr (of_decide_eq_true negative)
  have outside := Slots.insert_outside ordered (Nat.le_of_eq (allocated.trans size.symm)) (⟨price, qty⟩ : PriceLevel Price Quantity)
  have empty : (qty == 0) = false := empty
  cases shifted : Slots.shiftUp pos side.size side.lvls with
  | none =>
    simp only [FlatSide.update, index, found, empty, place, shifted, if_false, Option.bind_eq_bind, Option.bind_some, Option.bind_none,
      Bool.false_eq_true]
  | some lvls =>
    rw [shifted, Option.bind_some] at outside
    simp only [FlatSide.update, index, found, empty, place, shifted, outside, if_false, Option.bind_eq_bind, Option.bind_some,
      Option.bind_none, Bool.false_eq_true]

def step (side : FlatSide Price Quantity isBid) (update : Price × Quantity) : Option (FlatSide Price Quantity isBid) :=
  side.update update.1 update.2

/-- No update accesses a level outside the array, and no more levels are live than
it has, exactly when no new price comes to a full one. -/
theorem inside_iff [Zero Price] (isBid : Bool) (maxLevels : Nat) (updates : List (Price × Quantity)) :
    (∀ before, before <+: updates →
      ∃ side : FlatSide Price Quantity isBid, before.foldlM step (FlatSide.new maxLevels) = some side ∧ side.size ≤ maxLevels) ↔
      Runs.AtEveryStepM step (fun side update => ¬ Overfull maxLevels side update)
        (FlatSide.new maxLevels : FlatSide Price Quantity isBid) updates := by
  let good := fun (_ : List (Price × Quantity)) (result : Option (FlatSide Price Quantity isBid)) =>
    ∃ side, result = some side ∧ side.size ≤ maxLevels
  refine Runs.history_iff good (fun _ side (inside : Inside maxLevels side) => ⟨side, rfl, inside.bound⟩)
    (fun _ _ _ _ _ inside room => update_within inside room) (fun _ _ _ _ _ inside returned full => ?_) (new_inside maxLevels)
  obtain ⟨next, moved, -⟩ := returned
  exact absurd ((update_overfull inside full).symm.trans moved) nofun

/-- Two prices come to a side of one level. -/
theorem second_price_outside : ¬ ∃ side : FlatSide Int Int true,
    [(1, 1), (2, 1)].foldlM step (FlatSide.new 1 : FlatSide Int Int true) = some side ∧ side.size ≤ 1 := by
  have outside : [(1, 1), (2, 1)].foldlM step (FlatSide.new 1 : FlatSide Int Int true) = none := by decide
  rintro ⟨side, ran, -⟩
  cases outside.symm.trans ran

end FinanceTech.Proofs.FlatSideBounds
