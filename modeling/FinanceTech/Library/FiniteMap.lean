import Mathlib.Data.Finmap

/-! Finite maps as the contents of a list of entries. An index kept beside the
lists it indexes is correct when it is the finite map of their entries; these
rules move such an equation along when an entry leaves or arrives. -/

namespace FinanceTech.Library.FiniteMap
open List

universe u v

variable {α : Type u} {β : α → Type v} [DecidableEq α]

theorem toFinmap_perm {first second : List (Sigma β)} (unique : first.NodupKeys) (perm : first ~ second) :
    first.toFinmap = second.toFinmap := by
  apply Finmap.ext_lookup
  intro key
  rw [Finmap.dlookup_list_toFinmap, Finmap.dlookup_list_toFinmap,
    perm_dlookup key unique perm]

theorem erase_toFinmap_cons {entry : Sigma β} {rest : List (Sigma β)} (unique : (entry :: rest).NodupKeys) :
    (entry :: rest).toFinmap.erase entry.1 = rest.toFinmap := by
  have absent : entry.1 ∉ rest.keys := notMem_keys_of_nodupKeys_cons unique
  apply Finmap.ext_lookup
  intro key
  by_cases same : key = entry.1
  · rw [same, Finmap.lookup_erase, Finmap.dlookup_list_toFinmap, dlookup_eq_none.mpr absent]
  · rw [Finmap.lookup_erase_ne same, Finmap.dlookup_list_toFinmap, Finmap.dlookup_list_toFinmap,
      dlookup_cons_ne _ _ same]

theorem erase_toFinmap_middle {front back : List (Sigma β)} {entry : Sigma β}
    (unique : (front ++ entry :: back).NodupKeys) :
    (front ++ entry :: back).toFinmap.erase entry.1 = (front ++ back).toFinmap := by
  have perm : front ++ entry :: back ~ entry :: (front ++ back) := perm_middle
  rw [toFinmap_perm unique perm, erase_toFinmap_cons ((perm_nodupKeys perm).mp unique)]

theorem insert_toFinmap_middle {front back : List (Sigma β)} {entry : Sigma β}
    (unique : (front ++ entry :: back).NodupKeys) :
    (front ++ back).toFinmap.insert entry.1 entry.2 = (front ++ entry :: back).toFinmap := by
  rw [toFinmap_perm unique perm_middle]
  exact (Finmap.toFinmap_cons _ _ _).symm

theorem lookup_toFinmap_eq_some {entries : List (Sigma β)} (unique : entries.NodupKeys) {key : α} {value : β key} :
    entries.toFinmap.lookup key = some value ↔ ⟨key, value⟩ ∈ entries := by
  rw [Finmap.dlookup_list_toFinmap]
  exact mem_dlookup_iff unique

theorem mem_toFinmap {entries : List (Sigma β)} {key : α} : key ∈ entries.toFinmap ↔ key ∈ entries.keys := by
  rw [Finmap.mem_list_toFinmap, mem_keys]

/-! ### Maps with the same keys -/

/-- The second map holds what the first one holds, put into another form. -/
def Mapped {V W : Type v} (form : V → W) (first : Finmap fun _ : α => V) (second : Finmap fun _ : α => W) : Prop :=
  ∀ key, second.lookup key = (first.lookup key).map form

namespace Mapped

variable {V W : Type v} {form : V → W} {first : Finmap fun _ : α => V} {second : Finmap fun _ : α => W}

theorem erase (mapped : Mapped form first second) (key : α) : Mapped form (first.erase key) (second.erase key) := by
  intro other
  by_cases same : other = key
  · rw [same, Finmap.lookup_erase, Finmap.lookup_erase]
    rfl
  · rw [Finmap.lookup_erase_ne same, Finmap.lookup_erase_ne same]
    exact mapped other

theorem insert (mapped : Mapped form first second) (key : α) (value : V) :
    Mapped form (first.insert key value) (second.insert key (form value)) := by
  intro other
  by_cases same : other = key
  · rw [same, Finmap.lookup_insert, Finmap.lookup_insert]
    rfl
  · rw [Finmap.lookup_insert_of_ne _ same, Finmap.lookup_insert_of_ne _ same]
    exact mapped other

theorem mem (mapped : Mapped form first second) (key : α) : key ∈ second ↔ key ∈ first := by
  rw [← Finmap.lookup_isSome, ← Finmap.lookup_isSome, mapped key, Option.isSome_map]

end Mapped

theorem lookup_of_insert {V : Type v} {map : Finmap fun _ : α => V} {key other : α} {value found : V}
    (present : (map.insert key value).lookup other = some found) : (other = key ∧ found = value) ∨ map.lookup other = some found := by
  by_cases same : other = key
  · rw [same, Finmap.lookup_insert] at present
    exact .inl ⟨same, (Option.some.inj present).symm⟩
  · rw [Finmap.lookup_insert_of_ne _ same] at present
    exact .inr present

theorem lookup_of_erase {V : Type v} {map : Finmap fun _ : α => V} {key other : α} {value : V}
    (found : (map.erase key).lookup other = some value) : map.lookup other = some value := by
  by_cases same : other = key
  · rw [same, Finmap.lookup_erase] at found
    cases found
  · rwa [Finmap.lookup_erase_ne same] at found

end FinanceTech.Library.FiniteMap
