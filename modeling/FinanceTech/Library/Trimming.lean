import Mathlib.Data.List.Induction
import Mathlib.Data.List.TakeWhile

/-! A list without the leading and the trailing run of its blank elements. -/

namespace FinanceTech.Library.Trimming

universe u

variable {α : Type u} {blank : α → Bool}

def trimmed (blank : α → Bool) (items : List α) : List α :=
  ((items.dropWhile blank).reverse.dropWhile blank).reverse

/-- A list cut into its leading blanks, its core and its trailing blanks. -/
structure Shape (blank : α → Bool) (items lead core trail : List α) : Prop where
  split : items = lead ++ core ++ trail
  leading : ∀ item ∈ lead, blank item = true
  trailing : ∀ item ∈ trail, blank item = true
  first : ∃ item rest, core = item :: rest ∧ blank item = false
  last : ∃ rest item, core = rest ++ [item] ∧ blank item = false

theorem trimmed_blank {items : List α} (all : ∀ item ∈ items, blank item = true) : trimmed blank items = [] := by
  have none : items.dropWhile blank = [] := List.dropWhile_eq_nil_iff.mpr all
  rw [trimmed, none]
  rfl

theorem Shape.trimmed_eq {items lead core trail : List α} (shape : Shape blank items lead core trail) : trimmed blank items = core := by
  obtain ⟨first, rest, isFirst, bright⟩ := shape.first
  obtain ⟨before, last, isLast, dark⟩ := shape.last
  have forward : items.dropWhile blank = core ++ trail := by
    rw [shape.split, List.append_assoc, List.dropWhile_append_of_pos shape.leading, isFirst, List.cons_append]
    exact List.dropWhile_cons_of_neg (by simp [bright])
  have backward : (core ++ trail).reverse.dropWhile blank = core.reverse := by
    rw [List.reverse_append, List.dropWhile_append_of_pos (fun item member => shape.trailing item (List.mem_reverse.mp member))]
    rw [isLast, List.reverse_append, List.reverse_singleton, List.singleton_append]
    exact List.dropWhile_cons_of_neg (by simp [dark])
  rw [trimmed, forward, backward, List.reverse_reverse]

/-- A list of which not all is blank has a shape. -/
theorem shape_exists {items : List α} (bright : ∃ item ∈ items, blank item = false) :
    ∃ lead core trail, Shape blank items lead core trail := by
  obtain ⟨item, member, isBright⟩ := bright
  have leads : items.dropWhile blank ≠ [] := by
    intro none
    have absurd := List.dropWhile_eq_nil_iff.mp none item member
    simp [isBright] at absurd
  obtain ⟨first, rest, isFirst⟩ := List.exists_cons_of_ne_nil leads
  have firstBright : blank first = false := by
    have head := List.head_dropWhile_not blank leads
    simpa [isFirst] using head
  have reversed : (first :: rest).reverse = (first :: rest).reverse.takeWhile blank ++ (first :: rest).reverse.dropWhile blank :=
    List.takeWhile_append_dropWhile.symm
  have trails : (first :: rest).reverse.dropWhile blank ≠ [] := by
    intro none
    have absurd := List.dropWhile_eq_nil_iff.mp none first (by simp)
    simp [firstBright] at absurd
  obtain ⟨last, before, isLast⟩ := List.exists_cons_of_ne_nil trails
  have lastBright : blank last = false := by
    have head := List.head_dropWhile_not blank trails
    simp only [isLast, List.head_cons] at head
    exact head
  have split : first :: rest = before.reverse ++ [last] ++ ((first :: rest).reverse.takeWhile blank).reverse := by
    have forward := congrArg List.reverse reversed
    rw [isLast] at forward
    simpa using forward
  refine ⟨items.takeWhile blank, before.reverse ++ [last], ((first :: rest).reverse.takeWhile blank).reverse, ?_, ?_, ?_, ?_, ?_⟩
  · rw [List.append_assoc, ← split, ← isFirst, List.takeWhile_append_dropWhile]
  · intro item member
    exact List.mem_takeWhile_imp member
  · intro item member
    exact List.mem_takeWhile_imp (List.mem_reverse.mp member)
  · -- the first element of what is left after the leading blanks is the first of the core
    cases shapeOf : before.reverse with
    | nil => exact ⟨last, [], rfl, lastBright⟩
    | cons head tail =>
      rw [shapeOf] at split
      have same : first = head := (List.cons.inj split).1
      exact ⟨head, tail ++ [last], rfl, same ▸ firstBright⟩
  · exact ⟨before.reverse, last, rfl, lastBright⟩

end FinanceTech.Library.Trimming
