import Mathlib.Algebra.BigOperators.Group.List.Basic
import Mathlib.Algebra.Ring.Nat

/-! Threads kept in a list, of which one at a time moves on. What all of them
have done so far is a sum over the list, and a move changes one summand. -/

namespace FinanceTech.Library.Threads
open List

universe u

variable {α : Type u}

/-- What all threads have done together. -/
def tally (amount : α → Nat) (threads : List α) : Nat := (threads.map amount).sum

theorem tally_append (amount : α → Nat) (threads : List α) (thread : α) :
    tally amount (threads ++ [thread]) = tally amount threads + amount thread := by
  simp [tally]

theorem split_at {threads : List α} {index : Nat} {thread : α} (found : threads[index]? = some thread) :
    ∃ front back, threads = front ++ thread :: back ∧ ∀ next, threads.set index next = front ++ next :: back := by
  obtain ⟨inside, rfl⟩ := List.getElem?_eq_some_iff.mp found
  refine ⟨threads.take index, threads.drop (index + 1), ?_, fun next => ?_⟩
  · rw [← drop_eq_getElem_cons inside, take_append_drop]
  · rw [set_eq_take_append_cons_drop, if_pos inside]

/-- Who is at a place after a thread has moved. -/
theorem set_cases {threads : List α} {index other : Nat} {next thread : α} (found : (threads.set index next)[other]? = some thread) :
    index = other ∧ thread = next ∨ index ≠ other ∧ threads[other]? = some thread := by
  by_cases same : index = other
  · subst same
    obtain ⟨inside, is⟩ := List.getElem?_eq_some_iff.mp found
    rw [getElem_set_self] at is
    exact .inl ⟨rfl, is.symm⟩
  · rw [getElem?_set_ne same] at found
    exact .inr ⟨same, found⟩

theorem tally_set (amount : α → Nat) {threads : List α} {index : Nat} {thread : α} (found : threads[index]? = some thread)
    (next : α) : tally amount (threads.set index next) + amount thread = tally amount threads + amount next := by
  obtain ⟨front, back, rfl, moved⟩ := split_at found
  rw [moved]
  simp only [tally, map_append, map_cons, sum_append, sum_cons]
  omega

theorem le_tally (amount : α → Nat) {threads : List α} {thread : α} (found : thread ∈ threads) :
    amount thread ≤ tally amount threads := by
  obtain ⟨front, back, rfl⟩ := mem_iff_append.mp found
  simp only [tally, map_append, map_cons, sum_append, sum_cons]
  omega

/-- Two threads at different places count once each. -/
theorem tally_pair (amount : α → Nat) {threads : List α} {first second : Nat} {one other : α} (apart : first ≠ second)
    (left : threads[first]? = some one) (right : threads[second]? = some other) :
    amount one + amount other ≤ tally amount threads := by
  have removed : tally amount (threads.eraseIdx first) + amount one = tally amount threads := by
    obtain ⟨inside, rfl⟩ := List.getElem?_eq_some_iff.mp left
    conv_rhs => rw [← take_append_drop first threads, drop_eq_getElem_cons inside]
    simp only [eraseIdx_eq_take_drop_succ, tally, map_append, map_cons, sum_append, sum_cons]
    omega
  have kept := le_tally amount (mem_eraseIdx_iff_getElem?.mpr ⟨second, apart.symm, right⟩)
  omega

theorem exists_pos_of_tally {amount : α → Nat} {threads : List α} (positive : 0 < tally amount threads) :
    ∃ thread ∈ threads, 0 < amount thread := by
  by_contra none
  simp only [not_exists, not_and, Nat.not_lt, Nat.le_zero] at none
  refine positive.ne' (sum_eq_zero fun value found => ?_)
  obtain ⟨thread, present, rfl⟩ := mem_map.mp found
  exact none thread present

theorem tally_congr {first second : α → Nat} {threads : List α} (same : ∀ thread ∈ threads, first thread = second thread) :
    tally first threads = tally second threads :=
  congrArg sum (map_congr_left same)

theorem tally_add (first second : α → Nat) (threads : List α) :
    tally (fun thread => first thread + second thread) threads = tally first threads + tally second threads :=
  sum_map_add

theorem tally_le {first second : α → Nat} {threads : List α} (most : ∀ thread ∈ threads, first thread ≤ second thread) :
    tally first threads ≤ tally second threads := by
  induction threads with
  | nil => exact Nat.le_refl 0
  | cons thread rest ih =>
    simp only [tally, map_cons, sum_cons] at ih ⊢
    have here := most thread mem_cons_self
    have later := ih fun other inside => most other (mem_cons_of_mem thread inside)
    omega

/-- What only some of the threads have done. -/
theorem tally_filter (amount : α → Nat) (counts : α → Bool) (threads : List α) :
    tally (fun thread => if counts thread then amount thread else 0) threads = ((threads.filter counts).map amount).sum := by
  induction threads with
  | nil => rfl
  | cons thread rest ih =>
    rw [tally] at ih ⊢
    rw [map_cons, sum_cons, ih, filter_cons]
    split
    next => rw [map_cons, sum_cons]
    next => rw [Nat.zero_add]

/-! ### What each thread has done

A log of what the threads have done says which thread did it. -/

variable {β : Type u}

def ofThread (log : List (Nat × β)) (index : Nat) : List β := (log.filter (·.1 = index)).map (·.2)

theorem ofThread_append (log : List (Nat × β)) (index other : Nat) (items : List β) :
    ofThread (log ++ items.map (index, ·)) other = ofThread log other ++ if index = other then items else [] := by
  simp only [ofThread, filter_append, map_append, filter_map]
  by_cases same : index = other
  · simp [same, Function.comp_def]
  · simp [same, Function.comp_def]

theorem ofThread_concat (first second : List (Nat × β)) (index : Nat) :
    ofThread (first ++ second) index = ofThread first index ++ ofThread second index := by
  simp only [ofThread, filter_append, map_append]

theorem ofThread_singleton (index other : Nat) (item : β) : ofThread [(index, item)] other = if index = other then [item] else [] := by
  by_cases same : index = other <;> simp [ofThread, same]

theorem ofThread_perm {first second : List (Nat × β)} (perm : first ~ second) (index : Nat) :
    ofThread first index ~ ofThread second index := (perm.filter _).map _

/-- A rearrangement of the items says who did what as before. -/
theorem exists_labels {log : List (Nat × β)} {items : List β} (perm : items ~ log.map (·.2)) :
    ∃ labelled, labelled ~ log ∧ labelled.map (·.2) = items := by
  have labels : Forall₂ (fun item entry => entry.2 = item) (log.map (·.2)) log := by
    apply forall₂_map_left_iff.mpr
    exact forall₂_same.mpr fun _ _ => rfl
  obtain ⟨labelled, same, rearranged⟩ := perm_comp_forall₂ perm labels
  refine ⟨labelled, rearranged, ?_⟩
  clear rearranged perm
  induction same with
  | nil => rfl
  | cons head _ ih => rw [map_cons, head, ih]

theorem map_snd_append (log : List (Nat × β)) (index : Nat) (items : List β) :
    (log ++ items.map (index, ·)).map (·.2) = log.map (·.2) ++ items := by
  simp only [map_append, map_map]
  exact congrArg _ (map_id' items)

end FinanceTech.Library.Threads
