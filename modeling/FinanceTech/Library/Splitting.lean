import Mathlib.Data.List.Infix
import Mathlib.Algebra.Order.Ring.Nat

/-! A text cut from the front at the occurrences of a delimiter. Occurrences may
overlap, so it is not enough that no part has one inside. -/

namespace FinanceTech.Library.Splitting
open List

universe u

variable {α : Type u} {delimiter text part rest : List α} {parts : List (List α)}

/-- The delimiter behind a part is its first occurrence there. -/
def Ended (delimiter part : List α) : Prop := ∀ place < part.length, ¬ delimiter <+: (part ++ delimiter).drop place

inductive Parts (delimiter : List α) : List α → List (List α) → Prop where
  | last {part : List α} (free : ¬ delimiter <:+: part) : Parts delimiter part [part]
  | next {part rest : List α} {parts : List (List α)} (ended : Ended delimiter part) (others : Parts delimiter rest parts) :
      Parts delimiter (part ++ delimiter ++ rest) (part :: parts)

theorem Parts.nonempty (cut : Parts delimiter text parts) : delimiter ≠ [] := by
  induction cut with
  | last free =>
    rintro rfl
    exact free nil_infix
  | next ended others ih => exact ih

theorem Parts.length_le (cut : Parts delimiter text parts) : parts.length ≤ text.length + 1 := by
  induction cut with
  | last free => simp
  | next ended others ih =>
    have positive := length_pos_iff.mpr others.nonempty
    simp only [length_cons, length_append]
    omega

/-! ### The first occurrence -/

theorem Ended.free (ended : Ended delimiter part) {place : Nat} (early : place < part.length) :
    ¬ delimiter <+: (part ++ delimiter ++ rest).drop place := by
  intro first
  refine ended place early ?_
  have split : (part ++ delimiter ++ rest).drop place = (part ++ delimiter).drop place ++ rest :=
    drop_append_of_le_length (by rw [length_append]; omega)
  rw [split] at first
  refine prefix_of_prefix_length_le first (prefix_append _ _) ?_
  rw [length_drop, length_append]
  omega

section Occurrence

variable [DecidableEq α]

/-- Where a text has the delimiter first. -/
def occurrence (delimiter text : List α) : Option Nat := text.tails.findIdx? fun rest => delimiter.isPrefixOf rest

theorem occurrence_eq_none : occurrence delimiter text = none ↔ ¬ delimiter <:+: text := by
  rw [occurrence, findIdx?_eq_none_iff, infix_iff_prefix_suffix]
  simp only [mem_tails, ← Bool.not_eq_true, isPrefixOf_iff_prefix, not_exists, not_and]
  exact forall_congr' fun rest => imp_not_comm

theorem occurrence_eq_some {place : Nat} : occurrence delimiter text = some place ↔
    ∃ part rest, text = part ++ delimiter ++ rest ∧ part.length = place ∧ Ended delimiter part := by
  rw [occurrence, findIdx?_eq_some_iff_getElem]
  simp only [length_tails, getElem_tails, isPrefixOf_iff_prefix]
  constructor
  · rintro ⟨inside, ⟨rest, here⟩, earlier⟩
    have whole : text = text.take place ++ delimiter ++ rest := by
      rw [append_assoc, here, take_append_drop]
    have length : (text.take place).length = place := length_take_of_le (by omega)
    refine ⟨text.take place, rest, whole, length, fun before early first => ?_⟩
    have split : text.drop before = (text.take place ++ delimiter).drop before ++ rest := by
      rw [← drop_append_of_le_length (by rw [length_append]; omega), ← whole]
    rw [length] at early
    refine earlier before early (first.trans ?_)
    rw [split]
    exact prefix_append _ _
  · rintro ⟨part, rest, rfl, rfl, ended⟩
    refine ⟨?_, ⟨rest, ?_⟩, fun before early => ended.free early⟩
    · simp only [length_append]
      omega
    · rw [append_assoc, drop_left]

theorem parts_exist (nonempty : delimiter ≠ []) (text : List α) : ∃ parts, Parts delimiter text parts := by
  induction length : text.length using Nat.strong_induction_on generalizing text with
  | _ count ih =>
    cases found : occurrence delimiter text with
    | none => exact ⟨[text], .last (occurrence_eq_none.mp found)⟩
    | some place =>
      obtain ⟨part, rest, rfl, -, ended⟩ := occurrence_eq_some.mp found
      have positive := length_pos_iff.mpr nonempty
      have shorter : rest.length < count := by
        rw [← length]
        simp only [length_append]
        omega
      obtain ⟨parts, cut⟩ := ih rest.length shorter rest rfl
      exact ⟨part :: parts, .next ended cut⟩

end Occurrence

/-! ### Joining -/

theorem Parts.nonnil (cut : Parts delimiter text parts) : parts ≠ [] := by
  cases cut with
  | last free => exact cons_ne_nil _ _
  | next ended others => exact cons_ne_nil _ _

/-- The parts are those that the delimiter joins to the text, where the one behind
each part occurs there first, and nowhere in the last part. -/
theorem parts_iff_join : Parts delimiter text parts ↔ delimiter.intercalate parts = text ∧
    ∃ front last, parts = front ++ [last] ∧ (∀ part ∈ front, Ended delimiter part) ∧ ¬ delimiter <:+: last := by
  constructor
  · intro cut
    induction cut with
    | @last part free => exact ⟨intercalate_singleton, [], part, rfl, fun _ member => absurd member not_mem_nil, free⟩
    | @next part rest parts ended cut ih =>
      obtain ⟨joined, front, last, rfl, ends, free⟩ := ih
      exact ⟨(intercalate_cons_of_ne_nil cut.nonnil).trans (congrArg _ joined), part :: front, last, rfl,
        forall_mem_cons.mpr ⟨ended, ends⟩, free⟩
  · rintro ⟨joined, front, last, rfl, ends, free⟩
    induction front generalizing text with
    | nil =>
      have same : last = text := intercalate_singleton.symm.trans joined
      exact same ▸ .last free
    | cons part front ih =>
      obtain ⟨ended, ends⟩ := forall_mem_cons.mp ends
      rw [cons_append, intercalate_cons_of_ne_nil (by simp)] at joined
      exact joined ▸ .next ended (ih rfl ends)

/-! ### Delimiters of one element -/

theorem ended_singleton {item : α} : Ended [item] part ↔ item ∉ part := by
  constructor
  · intro ended member
    obtain ⟨before, after, rfl⟩ := append_of_mem member
    refine ended before.length (by simp) ⟨after ++ [item], ?_⟩
    simp
  · rintro absent place early ⟨after, same⟩
    rw [drop_append_of_le_length (Nat.le_of_lt early), drop_eq_getElem_cons early] at same
    obtain ⟨rfl, -⟩ := cons.inj same
    exact absent (getElem_mem early)

theorem not_singleton_infix {item : α} : ¬ [item] <:+: part ↔ item ∉ part := (singleton_infix_iff item part).not

theorem Parts.free {item : α} (cut : Parts [item] text parts) : ∀ part ∈ parts, item ∉ part := by
  induction cut with
  | last free => exact fun part member => mem_singleton.mp member ▸ not_singleton_infix.mp free
  | next ended others ih => exact forall_mem_cons.mpr ⟨ended_singleton.mp ended, ih⟩

end FinanceTech.Library.Splitting
