import FinanceTech.Library.SortedMap
import Mathlib.Data.Finset.Card

/-! Sorted maps of bounded size that keep the first value of each key. Cutting a
map to its best entries after every new one leaves what cutting it once at the
end leaves. -/

namespace FinanceTech.Library.SortedMap
open List

universe u v

variable {K : Type u} {V : Type v} {before : K → K → Prop} [IsStrictTotalOrder K before] [DecidableRel before] [DecidableEq K]

/-- Where a key goes is where the keys before it end. -/
theorem insert_at {front back : Entries K V} {key : K} (passed : ∀ entry ∈ front, before entry.1 key)
    (later : ∀ entry ∈ back, before key entry.1) (value : V) :
    insert before key value (front ++ back) = front ++ ⟨key, value⟩ :: back := by
  induction front with
  | nil =>
    cases back with
    | nil => rfl
    | cons head rest => exact if_pos (later head mem_cons_self)
  | cons head rest ih =>
    obtain ⟨ahead, others⟩ := forall_mem_cons.mp passed
    have apart : key ≠ head.1 := by
      rintro rfl
      exact irrefl (r := before) _ ahead
    rw [cons_append, insert, if_neg (asymm (r := before) ahead), if_neg apart, ih others]
    rfl

namespace Map

/-- `std::map::emplace`, which keeps the value of a key that is there. -/
def emplace (map : Map K V before) (key : K) (value : V) : Map K V before :=
  if (map.find? key).isSome then map else map.insertOrAssign key value

def emplaceAll (map : Map K V before) (items : Entries K V) : Map K V before :=
  items.foldl (fun map item => map.emplace item.1 item.2) map

omit [IsStrictTotalOrder K before] [DecidableRel before] [DecidableEq K] in
/-- The first entries of a map. -/
def best (map : Map K V before) (count : Nat) : Map K V before :=
  ⟨map.entries.take count, map.sorted.sublist before (take_sublist count map.entries)⟩

variable {map : Map K V before} {key : K} {value : V} {count : Nat}

theorem emplace_found {old : V} (found : map.find? key = some old) (value : V) : map.emplace key value = map := by
  rw [emplace, found]
  rfl

theorem emplace_fresh (absent : map.find? key = none) (value : V) : map.emplace key value = map.insertOrAssign key value := by
  rw [emplace, absent]
  rfl

theorem find?_emplace (map : Map K V before) (key other : K) (value : V) :
    (map.emplace key value).find? other = (map.find? other).or (if other = key then some value else none) := by
  cases found : map.find? key with
  | some old =>
    rw [emplace_found found]
    split
    next same =>
      rw [same, found]
      rfl
    next => exact (Option.or_none).symm
  | none =>
    rw [emplace_fresh found, find?_insertOrAssign]
    split
    next same =>
      rw [same, found]
      rfl
    next => exact (Option.or_none).symm

/-- The first value that came for a key is the one it has. -/
theorem find?_emplaceAll (map : Map K V before) (items : Entries K V) (key : K) :
    (map.emplaceAll items).find? key = (map.find? key).or (items.dlookup key) := by
  induction items generalizing map with
  | nil => exact Option.or_none.symm
  | cons item rest ih =>
    have later := ih (map.emplace item.1 item.2)
    rw [find?_emplace, Option.or_assoc] at later
    refine later.trans (congrArg _ ?_)
    rw [dlookup_cons]
    split
    next => rfl
    next => rfl

/-! ### The best entries -/

omit [IsStrictTotalOrder K before] [DecidableRel before] [DecidableEq K] in
theorem best_all {map : Map K V before} (fits : map.entries.length ≤ count) : map.best count = map := by
  obtain ⟨entries, sorted⟩ := map
  have whole : entries.take count = entries := take_of_length_le fits
  unfold best
  congr

omit [IsStrictTotalOrder K before] [DecidableRel before] [DecidableEq K] in
theorem ext_entries {first second : Map K V before} (same : first.entries = second.entries) : first = second := by
  cases first
  cases second
  cases same
  rfl

omit [DecidableRel before] in
/-- A key behind every entry is not there. -/
theorem absent_behind (passed : ∀ entry ∈ map.entries, before entry.1 key) : map.find? key = none := by
  cases found : map.find? key with
  | none => rfl
  | some old => exact absurd (passed _ (find?_eq_some.mp found)) (irrefl (r := before) key)

/-- A key behind as many entries as may stay does not stay. -/
theorem best_emplace_beyond {front back : Entries K V} (whole : map.entries = front ++ back)
    (passed : ∀ entry ∈ front, before entry.1 key) (beyond : count ≤ front.length) (value : V) :
    (((map.best count).emplace key value).best count).entries = front.take count := by
  have kept : (map.best count).entries = front.take count := by
    change map.entries.take count = _
    rw [whole, take_append_of_le_length beyond]
  have ahead : ∀ entry ∈ front.take count, before entry.1 key := fun entry member => passed entry (mem_of_mem_take member)
  have absent : (map.best count).find? key = none := absent_behind fun entry member => ahead entry (kept ▸ member)
  have inserted := insert_at ahead (fun _ member => absurd member not_mem_nil) value
  rw [append_nil] at inserted
  change (((map.best count).emplace key value).entries).take count = _
  rw [emplace_fresh absent]
  change (insert before key value (map.best count).entries).take count = _
  rw [kept, inserted, take_append_of_le_length (by rw [length_take, min_eq_left beyond]), take_take, Nat.min_self]

/-- The best entries of a map after a new key are those of its best entries. -/
theorem best_emplace (map : Map K V before) (key : K) (value : V) (count : Nat) :
    ((map.best count).emplace key value).best count = (map.emplace key value).best count := by
  apply ext_entries
  cases found : map.find? key with
  | some old =>
    obtain ⟨front, back, whole, -, -, passed, -⟩ := split_found found value
    rw [emplace_found found]
    rcases Nat.lt_or_ge front.length count with inside | beyond
    · have kept : (map.best count).find? key = some old := by
        apply find?_eq_some.mpr
        change _ ∈ map.entries.take count
        obtain ⟨more, rfl⟩ : ∃ more, count = front.length + (more + 1) := ⟨count - front.length - 1, by omega⟩
        rw [whole, take_length_add_append, take_succ_cons]
        simp
      rw [emplace_found kept]
      exact (take_take ..).trans (by rw [Nat.min_self]; rfl)
    · rw [best_emplace_beyond whole passed beyond]
      change _ = map.entries.take count
      rw [whole, take_append_of_le_length beyond]
  | none =>
    obtain ⟨front, back, whole, inserted, passed, later⟩ := split_fresh found value
    rw [emplace_fresh found]
    change _ = ((map.insertOrAssign key value).entries).take count
    rcases Nat.lt_or_ge front.length count with inside | beyond
    · obtain ⟨more, rfl⟩ : ∃ more, count = front.length + (more + 1) := ⟨count - front.length - 1, by omega⟩
      have kept : (map.best (front.length + (more + 1))).entries = front ++ back.take (more + 1) := by
        change map.entries.take _ = _
        rw [whole, take_length_add_append]
      have behind : ∀ entry ∈ back.take (more + 1), before key entry.1 := fun entry member => later entry (mem_of_mem_take member)
      have absent : (map.best (front.length + (more + 1))).find? key = none := by
        cases stays : (map.best (front.length + (more + 1))).find? key with
        | none => rfl
        | some old =>
          have member := mem_of_mem_take (find?_eq_some.mp stays)
          rw [find?_eq_some.mpr member] at found
          cases found
      rw [emplace_fresh absent, inserted]
      change (insert before key value (map.best (front.length + (more + 1))).entries).take _ = _
      rw [kept, insert_at passed behind, take_length_add_append, take_length_add_append, take_succ_cons, take_succ_cons, take_take,
        Nat.min_eq_left (Nat.le_succ more)]
    · rw [best_emplace_beyond whole passed beyond, inserted, take_append_of_le_length beyond]

theorem best_emplaceAll (map : Map K V before) (items : Entries K V) (count : Nat) :
    items.foldl (fun map item => (map.emplace item.1 item.2).best count) (map.best count) = (map.emplaceAll items).best count := by
  induction items generalizing map with
  | nil => rfl
  | cons item rest ih =>
    rw [foldl_cons, best_emplace]
    exact ih (map.emplace item.1 item.2)

/-! ### Everything that came -/

theorem mem_emplaceAll (items : Entries K V) (key : K) :
    key ∈ ((empty : Map K V before).emplaceAll items).entries.keys ↔ key ∈ items.keys := by
  rw [← dlookup_isSome, ← dlookup_isSome]
  change (((empty : Map K V before).emplaceAll items).find? key).isSome ↔ _
  rw [find?_emplaceAll, find?_empty, Option.none_or]

/-- There is one entry for each key that came. -/
theorem length_emplaceAll (items : Entries K V) :
    ((empty : Map K V before).emplaceAll items).entries.length = items.keys.dedup.length := by
  have unique : ((empty : Map K V before).emplaceAll items).entries.keys.Nodup := (Map.sorted _).nodupKeys before
  have perm := (perm_ext_iff_of_nodup unique (nodup_dedup items.keys)).mpr fun key =>
    (mem_emplaceAll items key).trans mem_dedup.symm
  rw [← perm.length_eq]
  exact (length_map _).symm

/-- A map is what its own entries make. -/
theorem emplaceAll_entries (map : Map K V before) : (empty : Map K V before).emplaceAll map.entries = map := by
  apply ext_find?
  intro key
  rw [find?_emplaceAll, find?_empty, Option.none_or]
  rfl

theorem emplaceAll_append (map : Map K V before) (first second : Entries K V) :
    map.emplaceAll (first ++ second) = (map.emplaceAll first).emplaceAll second := foldl_append

omit [IsStrictTotalOrder K before] [DecidableRel before] [DecidableEq K] in
/-- The best entries come before all others. -/
theorem best_before {entry other : (_ : K) × V} (inside : entry ∈ (map.best count).entries) (present : other ∈ map.entries)
    (outside : other.1 ∉ (map.best count).entries.keys) : before entry.1 other.1 := by
  have sorted := map.sorted
  rw [← take_append_drop count map.entries] at sorted present
  rcases mem_append.mp present with within | beyond
  · exact absurd (mem_keys_of_mem within) outside
  · exact (pairwise_append.mp sorted).2.2 entry inside other beyond

end Map

/-! ### Keys alone -/

/-- The keys that are kept are the best of those that came, as many as may be. -/
structure BestOf (before : K → K → Prop) (count : Nat) (came kept : List K) : Prop where
  sorted : kept.Pairwise before
  size : kept.length = min count came.toFinset.card
  within : ∀ key ∈ kept, key ∈ came
  best : ∀ key ∈ kept, ∀ other ∈ came, other ∉ kept → before key other

theorem bestOf_emplaceAll (items : Entries K V) (count : Nat) :
    BestOf before count items.keys (((Map.empty : Map K V before).emplaceAll items).best count).entries.keys where
  sorted := pairwise_map.mpr (Map.sorted _)
  size := by
    rw [card_toFinset, ← @Map.length_emplaceAll K V before _ _ _ items]
    exact (length_map _).trans length_take
  within key member := by
    obtain ⟨value, present⟩ := exists_of_mem_keys member
    exact (Map.mem_emplaceAll items key).mp (mem_keys_of_mem (mem_of_mem_take present))
  best key member other came outside := by
    obtain ⟨value, inside⟩ := exists_of_mem_keys member
    obtain ⟨held, present⟩ := exists_of_mem_keys ((@Map.mem_emplaceAll K V before _ _ _ items other).mpr came)
    exact Map.best_before inside present outside

omit [DecidableRel before] in
theorem BestOf.unique {came kept : List K} {count : Nat} (best : BestOf before count came kept) : kept.Nodup := by
  refine best.sorted.imp ?_
  rintro first second ordered rfl
  exact irrefl (r := before) _ ordered

omit [DecidableRel before] in
/-- With room left, everything that came is kept. -/
theorem BestOf.complete {came kept : List K} {count : Nat} (best : BestOf before count came kept) (room : kept.length < count) {key : K}
    (member : key ∈ came) : key ∈ kept := by
  have unique : kept.Nodup := best.unique
  have within : kept.toFinset ⊆ came.toFinset := fun key inside => mem_toFinset.mpr (best.within key (mem_toFinset.mp inside))
  have size := best.size
  have same : kept.toFinset = came.toFinset := by
    apply Finset.eq_of_subset_of_card_le within
    rw [toFinset_card_of_nodup unique]
    omega
  rw [← mem_toFinset, same]
  exact mem_toFinset.mpr member

end FinanceTech.Library.SortedMap
