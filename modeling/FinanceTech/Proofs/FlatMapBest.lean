import FinanceTech.Library.BoundedMap
import FinanceTech.Library.Runs
import FinanceTech.Proofs.FlatMapSlots

/-! A flat map that only grows keeps the best keys it was ever offered, each with
the value that came first, whatever the order they come in. -/

namespace FinanceTech.Proofs.FlatMapBest
open List Library SortedMap MarketDepth FlatMapSlots

section Contents

variable {K V : Type} {ordering : SortOrder}

def contents (map : FlatMap K V ordering) : Entries K V :=
  (map.data.take map.size).map fun node => ⟨node.key, node.value⟩

theorem packed_contents {map : FlatMap K V ordering} {entries : Entries K V} {stale : List (Node K V)}
    (packed : Packed map entries stale) : contents map = entries := by
  rw [contents, packed.data, packed.size, ← nodes_length, take_left, nodes, map_map]
  exact map_id _

end Contents

variable {K V : Type} [LinearOrder K] {ordering : SortOrder}

/-- The live keys are strictly sorted within the capacity. -/
structure WellFormed (map : FlatMap K V ordering) : Prop where
  size : map.size ≤ map.capacity
  allocated : map.data.length = map.capacity
  sorted : Sorted (before ordering) (contents map)

/-- Where the code searches, its sums of indices do not overflow. -/
def Searched (map : FlatMap K V ordering) (key : K) : Prop := map.isBehind key = some false → Searchable map key

instance (map : FlatMap K V ordering) (key : K) : Decidable (Searched map key) := inferInstanceAs (Decidable (_ → _))

def pushItem (map : FlatMap K V ordering) (item : (_ : K) × V) : Option (FlatMap K V ordering) :=
  (map.push item.1 item.2).map Prod.fst

/-- The result of a push is missing exactly for a key behind the last one of a
full map. -/
def RefusesBehind (map : FlatMap K V ordering) (item : (_ : K) × V) : Prop :=
  ∃ next result, map.push item.1 item.2 = some (next, result) ∧ (result = none ↔
    map.size = map.capacity ∧ ∃ last, (contents map).getLast? = some last ∧ before ordering last.1 item.1)

/-- A map holds the best keys of what it was offered. -/
structure HoldsBest (offered : Entries K V) (map : FlatMap K V ordering) : Prop where
  wellFormed : WellFormed map
  size : map.size = min map.capacity offered.keys.dedup.length
  first : ∀ entry ∈ contents map, offered.dlookup entry.1 = some entry.2
  best : ∀ entry ∈ contents map, ∀ key ∈ offered.keys, key ∉ (contents map).keys → before ordering entry.1 key

variable {map : FlatMap K V ordering} {levels : Map K V (before ordering)} {stale : List (Node K V)}

theorem packed_wellFormed (packed : Packed map levels.entries stale) : WellFormed map := by
  have room := packed.room
  refine ⟨by rw [packed.size]; omega, packed.capacity, ?_⟩
  rw [packed_contents packed]
  exact levels.sorted

omit [LinearOrder K] in
private theorem contents_length (size : map.size ≤ map.capacity) (allocated : map.data.length = map.capacity) :
    (contents map).length = map.size := by
  rw [contents, length_map, length_take, allocated, Nat.min_eq_left size]

theorem WellFormed.packed (wellFormed : WellFormed map) (small : map.capacity < 2 ^ 32) :
    Packed map (contents map) (map.data.drop map.size) := by
  refine ⟨?_, (contents_length wellFormed.size wellFormed.allocated).symm, wellFormed.allocated, small⟩
  have live : nodes (contents map) = map.data.take map.size := by
    rw [nodes, contents, map_map]
    exact map_id _
  rw [live, take_append_drop]

def WellFormed.sortedContents (wellFormed : WellFormed map) : Map K V (before ordering) := ⟨contents map, wellFormed.sorted⟩

theorem best_fresh {front back : Entries K V} {key : K} {value : V} {capacity : Nat} (absent : levels.find? key = none)
    (inserted : (levels.insertOrAssign key value).entries = front ++ ⟨key, value⟩ :: back) :
    ((levels.emplace key value).best capacity).entries = (front ++ ⟨key, value⟩ :: back).take capacity := by
  rw [Map.emplace_fresh absent, ← inserted]
  rfl

theorem not_behind {front back : Entries K V} {entry : (_ : K) × V} {key : K} (whole : levels.entries = front ++ entry :: back)
    (ahead : ¬ before ordering entry.1 key) : ¬ ∀ entry ∈ levels.entries, before ordering entry.1 key := by
  intro behind
  exact ahead (behind entry (whole ▸ mem_append_right front mem_cons_self))

def KeepsBest (map : FlatMap K V ordering) (levels : Map K V (before ordering)) (key : K) (value : V) : Prop :=
  ∃ next result rest, map.push key value = some (next, result) ∧
    Packed next ((levels.emplace key value).best map.capacity).entries rest ∧ next.capacity = map.capacity ∧
    (result = none ↔ map.size = map.capacity ∧ ∀ entry ∈ levels.entries, before ordering entry.1 key)

theorem push_known (packed : Packed map levels.entries stale) {key : K} {old : V} (found : levels.find? key = some old)
    (searched : Searched map key) (value : V) : KeepsBest map levels key value := by
  have room := packed.room
  obtain ⟨front, back, whole, -, -, passed, later⟩ := Map.split_found found value
  have pushed := (whole ▸ packed).push_found searched passed later value
  refine ⟨map, _, stale, pushed, ?_, rfl, iff_of_false (Option.some_ne_none _) fun refused => ?_⟩
  · rw [Map.emplace_found found, Map.best_all (by omega)]
    exact packed
  · exact not_behind whole (irrefl key) refused.2

private theorem push_last (packed : Packed map levels.entries stale) (held : levels.entries ≠ []) {key : K} (absent : levels.find? key = none)
    (value : V) (inserted : (levels.insertOrAssign key value).entries = levels.entries ++ [⟨key, value⟩])
    (passed : ∀ entry ∈ levels.entries, before ordering entry.1 key) : KeepsBest map levels key value := by
  have room := packed.room
  have size := packed.size
  rw [KeepsBest, best_fresh absent inserted]
  cases stale with
  | nil =>
    rw [length_nil, Nat.add_zero] at room
    refine ⟨map, none, [], packed.push_refused held passed value, ?_, rfl, iff_of_true rfl ⟨size.trans room, passed⟩⟩
    rw [← room, take_left]
    exact packed
  | cons slot stale =>
    rw [length_cons] at room
    obtain ⟨next, pushed, packed, capacity⟩ := packed.push_behind held passed value
    refine ⟨next, _, stale, pushed, ?_, capacity, iff_of_false (Option.some_ne_none _) fun refused => ?_⟩
    · rw [take_of_length_le (by rw [length_append, length_singleton]; omega)]
      exact packed
    · have full := refused.1
      omega

private theorem push_ahead {front others : Entries K V} {last : (_ : K) × V} (packed : Packed map levels.entries stale) {key : K}
    (absent : levels.find? key = none) (searched : Searched map key) (value : V) (whole : levels.entries = front ++ (others ++ [last]))
    (inserted : (levels.insertOrAssign key value).entries = front ++ ⟨key, value⟩ :: (others ++ [last]))
    (passed : ∀ entry ∈ front, before ordering entry.1 key)
    (later : ∀ entry ∈ others ++ [last], before ordering key entry.1) : KeepsBest map levels key value := by
  have kept := whole ▸ packed
  have room := kept.room
  simp only [length_append, length_cons, length_nil] at room
  have ahead : before ordering key last.1 := later last (mem_append_right others mem_cons_self)
  have place : front ++ (others ++ [last]) = (front ++ others) ++ last :: [] := (append_assoc _ _ _).symm
  have inFront := not_behind (whole.trans place) (asymm ahead)
  rw [KeepsBest, best_fresh absent inserted]
  cases stale with
  | nil =>
    obtain ⟨next, pushed, packed, capacity⟩ := kept.push_evicts searched passed later value
    refine ⟨next, _, [], pushed, ?_, capacity, iff_of_false (Option.some_ne_none _) fun refused => inFront refused.2⟩
    have split : front ++ ⟨key, value⟩ :: (others ++ [last]) = (front ++ ⟨key, value⟩ :: others) ++ [last] := by
      rw [append_assoc, cons_append]
    have cut : ((front ++ ⟨key, value⟩ :: others) ++ [last]).take map.capacity = front ++ ⟨key, value⟩ :: others := by
      apply take_left'
      rw [length_append, length_cons]
      rw [length_nil] at room
      omega
    rw [split, cut]
    exact packed
  | cons slot stale =>
    rw [length_cons] at room
    obtain ⟨next, pushed, packed, capacity⟩ := kept.push_between searched passed later (by simp) value
    refine ⟨next, _, stale, pushed, ?_, capacity, iff_of_false (Option.some_ne_none _) fun refused => inFront refused.2⟩
    rw [take_of_length_le (by simp only [length_append, length_cons, length_nil]; omega)]
    exact packed

theorem push_best (packed : Packed map levels.entries stale) (held : levels.entries ≠ []) {key : K}
    (searched : Searched map key) (value : V) : KeepsBest map levels key value := by
  cases found : levels.find? key with
  | some old => exact push_known packed found searched value
  | none =>
    obtain ⟨front, back, whole, inserted, passed, later⟩ := Map.split_fresh found value
    rcases eq_nil_or_concat' back with rfl | ⟨others, last, rfl⟩
    · rw [append_nil] at whole
      rw [← whole] at inserted passed
      exact push_last packed held found value inserted passed
    · exact push_ahead packed found searched value whole inserted passed later

private theorem push_refuses (packed : Packed map levels.entries stale) (held : levels.entries ≠ []) {item : (_ : K) × V}
    (searched : Searched map item.1) : RefusesBehind map item := by
  obtain ⟨next, result, -, pushed, -, -, refused⟩ := push_best packed held searched item.2
  refine ⟨next, result, pushed, refused.trans (and_congr_right fun _ => ?_)⟩
  rw [packed_contents packed]
  constructor
  · intro behind
    obtain ⟨last, found⟩ := Option.ne_none_iff_exists'.mp (mt getLast?_eq_none_iff.mp held)
    exact ⟨last, found, behind last (mem_of_getLast? found)⟩
  · rintro ⟨last, found, behind⟩ entry member
    have present : levels.find? entry.1 ≠ none := by
      rw [Map.find?_eq_some.mpr member]
      exact Option.some_ne_none _
    rcases (Map.last?_greatest found).2 entry.1 present with own | earlier
    · exact own ▸ behind
    · exact trans_of (before ordering) earlier behind

private theorem best_held {key : K} {value : V} {capacity : Nat} (held : levels.entries ≠ []) (room : levels.entries.length ≤ capacity) :
    ((levels.emplace key value).best capacity).entries ≠ [] := by
  have positive : capacity ≠ 0 := by
    have some := length_pos_of_ne_nil held
    omega
  intro empty
  rcases take_eq_nil_iff.mp empty with none | gone
  · exact positive none
  · cases found : levels.find? key with
    | some old =>
      rw [Map.emplace_found found] at gone
      exact held gone
    | none =>
      obtain ⟨front, back, -, inserted, -⟩ := Map.split_fresh found value
      rw [Map.emplace_fresh found, inserted] at gone
      simp at gone

private theorem pushes_packed (packed : Packed map levels.entries stale) (held : levels.entries ≠ []) {items : Entries K V}
    (searched : Runs.AtEveryStepM pushItem (fun map item => Searched map item.1) map items) :
    ∃ final rest, items.foldlM pushItem map = some final ∧ final.capacity = map.capacity ∧
      (items.foldl (fun levels item => (levels.emplace item.1 item.2).best map.capacity) levels).entries ≠ [] ∧
      Packed final (items.foldl (fun levels item => (levels.emplace item.1 item.2).best map.capacity) levels).entries rest := by
  induction items generalizing map levels stale with
  | nil => exact ⟨map, stale, rfl, rfl, held, packed⟩
  | cons item rest ih =>
    obtain ⟨now, later⟩ := searched
    have room := packed.room
    obtain ⟨next, result, behind, pushed, kept, capacity, -⟩ := push_best packed held now item.2
    have moved : pushItem map item = some next := by rw [pushItem, pushed, Option.map_some]
    rw [moved] at later
    obtain ⟨final, last, reached, same, some, ends⟩ := ih kept (best_held held (by omega)) later
    rw [capacity] at same some ends
    refine ⟨final, last, ?_, same, some, ends⟩
    rw [foldlM_cons, moved]
    exact reached

theorem offered_best (wellFormed : WellFormed map) (small : map.capacity < 2 ^ 32) (held : 0 < map.size) {items : Entries K V}
    (searched : Runs.AtEveryStepM pushItem (fun map item => Searched map item.1) map items) :
    ∃ final rest, items.foldlM pushItem map = some final ∧ final.capacity = map.capacity ∧
      ((Map.empty.emplaceAll (contents map ++ items) : Map K V (before ordering)).best map.capacity).entries ≠ [] ∧
      Packed final ((Map.empty.emplaceAll (contents map ++ items) : Map K V (before ordering)).best map.capacity).entries rest := by
  have packed : Packed map wellFormed.sortedContents.entries (map.data.drop map.size) := wellFormed.packed small
  have size := packed.size
  have room := packed.room
  have some : wellFormed.sortedContents.entries ≠ [] := fun empty => by
    rw [empty, length_nil] at size
    omega
  have run := pushes_packed packed some searched
  have start := Map.best_all (show wellFormed.sortedContents.entries.length ≤ map.capacity by omega)
  have streamed := Map.best_emplaceAll wellFormed.sortedContents items map.capacity
  rw [start] at streamed
  rw [streamed] at run
  rw [Map.emplaceAll_append, show contents map = wellFormed.sortedContents.entries from rfl, Map.emplaceAll_entries]
  exact run

private theorem holdsBest_of_packed {offered : Entries K V} {capacity : Nat} (same : map.capacity = capacity)
    (packed : Packed map ((Map.empty.emplaceAll offered : Map K V (before ordering)).best capacity).entries stale) :
    HoldsBest offered map := by
  have whole := packed_contents packed
  refine ⟨packed_wellFormed packed, ?_, ?_, ?_⟩
  · rw [packed.size, same, ← @Map.length_emplaceAll K V (before ordering) _ _ _ offered]
    exact length_take
  · intro entry member
    rw [whole] at member
    have found := Map.find?_eq_some.mpr (mem_of_mem_take member)
    rwa [Map.find?_emplaceAll, Map.find?_empty, Option.none_or] at found
  · intro entry member key came outside
    rw [whole] at member outside
    obtain ⟨value, present⟩ := exists_of_mem_keys ((@Map.mem_emplaceAll K V (before ordering) _ _ _ offered key).mpr came)
    exact Map.best_before member present outside

/-- Whatever is pushed into a map with something in it, it holds the best keys of
all that were there or came, each with its first value, and a push is refused
exactly when the map is full and the key behind its last. -/
theorem pushes_keep_best (wellFormed : WellFormed map) (held : 0 < map.size) (small : map.capacity < 2 ^ 32) {items : Entries K V}
    (searched : Runs.AtEveryStepM pushItem (fun map item => Searched map item.1) map items) :
    (∃ final, items.foldlM pushItem map = some final ∧ final.capacity = map.capacity ∧ HoldsBest (contents map ++ items) final) ∧
      ∀ first item after middle, items = first ++ item :: after → first.foldlM pushItem map = some middle →
        RefusesBehind middle item := by
  constructor
  · obtain ⟨final, rest, reached, capacity, -, packed⟩ := offered_best wellFormed small held searched
    exact ⟨final, reached, capacity, holdsBest_of_packed capacity packed⟩
  · intro first item after middle split reached
    have inside : first <+: items := split ▸ prefix_append _ _
    obtain ⟨state, rest, same, -, some, packed⟩ := offered_best wellFormed small held (searched.of_prefix inside)
    obtain rfl := Option.some.inj (reached.symm.trans same)
    exact push_refuses packed some ((Runs.atEveryStepM_iff items).mp searched first item after middle split reached)

/-- A map of two with one key, and pushes that fill it, evict and are refused. -/
theorem pushes_keep_best_two :
    let map : FlatMap Int Int .ascending := ⟨1, 2, [⟨5, 50⟩, ⟨0, 0⟩]⟩
    let items : Entries Int Int := [⟨3, 30⟩, ⟨7, 70⟩, ⟨5, 51⟩, ⟨4, 40⟩]
    (∃ final, items.foldlM pushItem map = some final ∧ final.capacity = map.capacity ∧ HoldsBest (contents map ++ items) final) ∧
      ∀ first item after middle, items = first ++ item :: after → first.foldlM pushItem map = some middle →
        RefusesBehind middle item := by
  intro map items
  have wellFormed : WellFormed map := ⟨by decide, rfl, pairwise_singleton _ _⟩
  exact pushes_keep_best wellFormed (by decide) (by decide) (by decide)

/-- A key whose place is from `2 ^ 31` on, in front of or at another, is searched
for without end: the middles stay below its place. -/
theorem search_lost {front back : Entries K V} {entry : (_ : K) × V} {key : K} (packed : Packed map (front ++ entry :: back) stale)
    (passed : ∀ entry ∈ front, before ordering entry.1 key) (far : 2 ^ 31 ≤ front.length) (fuel : Nat) :
    Slots.search (fun left right => uint32 (left + right) / 2) (fun node => FlatMap.compare ordering key node.key) map.data
      fuel 0 map.size = none := by
  have size := packed.size
  rw [length_append, length_cons] at size
  apply @Slots.search_never _ _ _ _ (2 ^ 31)
  · intro left right
    unfold uint32
    omega
  · intro index node place read
    have inside : index < (nodes front).length := by
      rw [nodes_length]
      omega
    rw [packed.data, nodes_append, append_assoc, getElem?_append_left inside] at read
    obtain ⟨known, member, rfl⟩ := mem_map.mp (mem_of_getElem? read)
    exact compare_eq_false.mpr (passed known member)
  · exact Nat.zero_le _
  · omega

private theorem push_lost {front back : Entries K V} {entry : (_ : K) × V} {key : K} (packed : Packed map (front ++ entry :: back) stale)
    (passed : ∀ entry ∈ front, before ordering entry.1 key) (stopped : ∀ other ∈ entry :: back, ¬ before ordering other.1 key)
    (far : 2 ^ 31 ≤ front.length) (value : V) : map.push key value = none := by
  have behind : map.isBehind key = some false := packed.isBehind_eq passed stopped
  have lost : map.findInsertIndex key = none := search_lost packed passed far _
  simp only [FlatMap.push, behind, lost, Option.bind_eq_bind, Option.bind_some, Option.bind_none, Bool.false_eq_true, if_false]

/-- The keys from zero on, each with itself. -/
def counting (count : Nat) : Entries Int Int := (range count).map fun index : Nat => ⟨(index : Int), (index : Int)⟩

def counted (count : Nat) : FlatMap Int Int .ascending := ⟨count, count, nodes (counting count)⟩

private theorem counted_packed {count : Nat} (small : count < 2 ^ 32) : Packed (counted count) (counting count) [] := by
  have length : (counting count).length = count := by rw [counting, length_map, length_range]
  refine ⟨(append_nil _).symm, length.symm, ?_, small⟩
  exact (nodes_length _).trans length

private theorem counting_sorted (count : Nat) : Sorted (before .ascending) (counting count) := by
  rw [counting, Sorted, pairwise_map]
  exact pairwise_lt_range.imp fun earlier => Int.ofNat_lt.mpr earlier

theorem counted_lost {count : Nat} (far : 2 ^ 31 ≤ count) (small : count + 1 < 2 ^ 32) :
    WellFormed (counted (count + 1)) ∧ 0 < (counted (count + 1)).size ∧ (counted (count + 1)).capacity < 2 ^ 32 ∧
      (∀ fuel, Slots.search (fun left right => uint32 (left + right) / 2)
        (fun node => FlatMap.compare .ascending (count : Int) node.key) (counted (count + 1)).data fuel 0
        (counted (count + 1)).size = none) ∧
      [⟨(count : Int), 0⟩].foldlM pushItem (counted (count + 1)) = none := by
  have packed := counted_packed small
  have levels : Packed (counted (count + 1)) (⟨counting (count + 1), counting_sorted _⟩ : Map Int Int (before .ascending)).entries [] :=
    packed
  have split : counting (count + 1) = counting count ++ [⟨count, count⟩] := by
    rw [counting, range_succ, map_append]
    rfl
  rw [split] at packed
  have passed : ∀ entry ∈ counting count, before .ascending entry.1 (count : Int) := by
    intro entry member
    obtain ⟨index, inside, rfl⟩ := mem_map.mp member
    exact Int.ofNat_lt.mpr (mem_range.mp inside)
  have place : 2 ^ 31 ≤ (counting count).length := by
    rw [counting, length_map, length_range]
    exact far
  have lost : (counted (count + 1)).push (count : Int) 0 = none := by
    refine push_lost packed passed ?_ place 0
    intro entry member
    rw [mem_singleton.mp member]
    exact irrefl _
  refine ⟨packed_wellFormed levels, Nat.succ_pos count, small, search_lost packed passed place, ?_⟩
  rw [foldlM_cons, pushItem, lost]
  rfl

/-- A map of `2 ^ 31 + 1` keys is well-formed, and pushing its last key again
never returns: no number of turns ends the search. -/
theorem push_never_returns : WellFormed (counted (2 ^ 31 + 1)) ∧ 0 < (counted (2 ^ 31 + 1)).size ∧
    (counted (2 ^ 31 + 1)).capacity < 2 ^ 32 ∧
    (∀ fuel, Slots.search (fun left right => uint32 (left + right) / 2)
      (fun node => FlatMap.compare .ascending ((2 ^ 31 : Nat) : Int) node.key) (counted (2 ^ 31 + 1)).data fuel 0
      (counted (2 ^ 31 + 1)).size = none) ∧
    [⟨((2 ^ 31 : Nat) : Int), 0⟩].foldlM pushItem (counted (2 ^ 31 + 1)) = none :=
  counted_lost (le_refl (2 ^ 31)) (by decide)

end FinanceTech.Proofs.FlatMapBest
