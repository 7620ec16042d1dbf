import Mathlib.Data.List.Perm.Basic
import Mathlib.Order.Lattice

/-! The largest elements of a sequence, kept while it goes by: a new element takes
the place of the least of them if it is larger. -/

namespace FinanceTech.Library
open List

universe u v

variable {α : Type u} {κ : Type v} [LinearOrder κ] {key : α → κ} {all top rest : List α} {item front : α}

/-- The elements of a list that are kept: none of the others has a larger key. -/
def Largest (key : α → κ) (all top : List α) : Prop :=
  ∃ others, all ~ top ++ others ∧ ∀ other ∈ others, ∀ kept ∈ top, key other ≤ key kept

namespace Largest

theorem whole (all : List α) : Largest key all all :=
  ⟨[], by rw [append_nil], fun _ member => absurd member not_mem_nil⟩

theorem perm {shuffled : List α} (largest : Largest key all top) (same : top ~ shuffled) : Largest key all shuffled := by
  obtain ⟨others, split, below⟩ := largest
  exact ⟨others, split.trans (same.append_right others), fun other member kept inside => below other member kept (same.mem_iff.mpr inside)⟩

/-- A new element that the least of them is not smaller than stays out. -/
theorem pass (largest : Largest key all (front :: rest)) (least : ∀ kept ∈ rest, key front ≤ key kept)
    (small : key item ≤ key front) : Largest key (all ++ [item]) (front :: rest) := by
  obtain ⟨others, split, below⟩ := largest
  refine ⟨others ++ [item], ?_, fun other member kept inside => ?_⟩
  · rw [← append_assoc]
    exact split.append_right [item]
  · rcases mem_append.mp member with old | new
    · exact below other old kept inside
    · rw [mem_singleton.mp new]
      rcases mem_cons.mp inside with rfl | later
      · exact small
      · exact le_trans small (least kept later)

/-- A larger one takes its place. -/
theorem replace (largest : Largest key all (front :: rest)) (least : ∀ kept ∈ rest, key front ≤ key kept)
    (large : key front < key item) : Largest key (all ++ [item]) (item :: rest) := by
  obtain ⟨others, split, below⟩ := largest
  refine ⟨front :: others, ?_, fun other member kept inside => ?_⟩
  · have moved : front :: rest ++ others ++ [item] ~ item :: rest ++ front :: others := by
      refine (perm_append_singleton item _).trans (Perm.cons item ?_)
      exact perm_middle.symm
    exact (split.append_right [item]).trans moved
  · have bound : key other ≤ key front := by
      rcases mem_cons.mp member with rfl | old
      · exact le_refl _
      · exact below other old front mem_cons_self
    rcases mem_cons.mp inside with rfl | later
    · exact le_trans bound (le_of_lt large)
    · exact le_trans bound (least kept later)

end Largest
end FinanceTech.Library
