import FinanceTech.Library.SortedMap

/-! Cells that are reached through handles. A list of owned objects whose nodes
are held as iterators is read and written by handle; these rules say what a read
sees after a write or an allocation. -/

namespace FinanceTech.Library.Cells
open List SortedMap

universe u v

variable {H : Type u} {V : Type v} [DecidableEq H]

/-- Write through a handle. -/
def modify (cells : Entries H V) (handle : H) (change : V → V) : Entries H V :=
  cells.map fun cell => if cell.1 = handle then ⟨cell.1, change cell.2⟩ else cell

@[simp] theorem modify_keys (cells : Entries H V) (handle : H) (change : V → V) :
    (modify cells handle change).keys = cells.keys := by
  simp only [modify, keys, map_map]
  apply map_congr_left
  intro cell _
  simp only [Function.comp_apply]
  split <;> rfl

theorem dlookup_modify (cells : Entries H V) (handle other : H) (change : V → V) :
    (modify cells handle change).dlookup other =
      if other = handle then (cells.dlookup other).map change else cells.dlookup other := by
  induction cells with
  | nil => simp [modify]
  | cons cell rest ih =>
    obtain ⟨key, value⟩ := cell
    simp only [modify, map_cons] at ih ⊢
    by_cases written : key = handle
    · cases written
      rw [if_pos rfl, dlookup_cons, dlookup_cons, ih]
      split <;> simp
    · rw [if_neg written, dlookup_cons, dlookup_cons, ih]
      by_cases same : other = key
      · cases same
        simp [written]
      · simp [same]

theorem dlookup_modify_ne {handle other : H} (different : other ≠ handle) (cells : Entries H V) (change : V → V) :
    (modify cells handle change).dlookup other = cells.dlookup other := by
  rw [dlookup_modify, if_neg different]

theorem dlookup_append_self {cells : Entries H V} {handle : H} (fresh : handle ∉ cells.keys) (value : V) :
    dlookup handle (cells ++ [(⟨handle, value⟩ : (_ : H) × V)]) = some value := by
  induction cells with
  | nil => simp
  | cons cell rest ih =>
    have absent : handle ≠ cell.1 ∧ handle ∉ rest.keys := by simpa using fresh
    rw [cons_append, dlookup_cons, if_neg absent.1]
    exact ih absent.2

theorem dlookup_append_some {cells : Entries H V} {handle : H} {value : V} (found : cells.dlookup handle = some value)
    (more : Entries H V) : (cells ++ more).dlookup handle = some value := by
  induction cells with
  | nil => cases found
  | cons cell rest ih =>
    rw [cons_append, dlookup_cons]
    rw [dlookup_cons] at found
    split at found
    next same => rw [if_pos same, found]
    next other => rw [if_neg other, ih found]

omit [DecidableEq H] in
theorem length_keys (cells : Entries H V) : cells.keys.length = cells.length := length_map _

/-- Freeing a cell makes the list one shorter. -/
theorem length_kerase {cells : Entries H V} {handle : H} (held : handle ∈ cells.keys) :
    (cells.kerase handle).length + 1 = cells.length := by
  have some := length_pos_of_mem held
  have left : (cells.kerase handle).keys.length = cells.keys.length - 1 := by rw [keys_kerase, length_erase_of_mem held]
  rw [length_keys, length_keys] at left
  rw [length_keys] at some
  omega

end FinanceTech.Library.Cells
