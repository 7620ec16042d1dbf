import Mathlib.Data.List.Sigma
import Mathlib.Data.List.Sort
import Mathlib.Order.Defs.Unbundled

/-! Maps that iterate in key order, as association lists sorted by a strict
total order. The order plays the role of a container's comparator: one library
serves maps that start at their smallest key and maps that start at their
largest. The facts about lookup are those of Mathlib's sigma lists. -/

namespace FinanceTech.Library.SortedMap
open List

universe u v w

/-- The entries of a map in iteration order. -/
abbrev Entries (K : Type u) (V : Type v) := List ((_ : K) × V)

section Order

variable {K : Type u} {V : Type v} (before : K → K → Prop)

def Sorted (entries : Entries K V) : Prop := entries.Pairwise fun first second => before first.1 second.1

theorem Sorted.head_before {head : (_ : K) × V} {rest : Entries K V} (sorted : Sorted before (head :: rest))
    {entry : (_ : K) × V} (member : entry ∈ rest) : before head.1 entry.1 := rel_of_pairwise_cons sorted member

theorem Sorted.tail {head : (_ : K) × V} {rest : Entries K V} (sorted : Sorted before (head :: rest)) :
    Sorted before rest := sorted.of_cons

theorem Sorted.sublist {kept entries : Entries K V} (sorted : Sorted before entries) (sub : kept <+ entries) :
    Sorted before kept := Pairwise.sublist sub sorted

theorem sorted_iff_keys {entries : Entries K V} : Sorted before entries ↔ (entries.map Sigma.fst).Pairwise before :=
  pairwise_map.symm

/-- Where the other entries stand. -/
theorem Sorted.around {front back : Entries K V} {key : K} {value : V} (sorted : Sorted before (front ++ ⟨key, value⟩ :: back)) :
    (∀ entry ∈ front, before entry.1 key) ∧ ∀ entry ∈ back, before key entry.1 := by
  obtain ⟨-, later, across⟩ := pairwise_append.mp sorted
  exact ⟨fun entry member => across entry member _ mem_cons_self, fun entry member => rel_of_pairwise_cons later member⟩

/-- Whether a map is sorted depends on its keys alone. -/
theorem Sorted.of_keys {W : Type v} {kept : Entries K W} {entries : Entries K V} (sorted : Sorted before entries)
    (sub : kept.map Sigma.fst <+ entries.map Sigma.fst) : Sorted before kept :=
  (sorted_iff_keys before).mpr (((sorted_iff_keys before).mp sorted).sublist sub)

theorem Sorted.nodupKeys [Std.Irrefl before] {entries : Entries K V} (sorted : Sorted before entries) :
    entries.NodupKeys := by
  refine nodupKeys_iff_pairwise.mpr (sorted.imp ?_)
  intro first second earlier same
  exact irrefl (r := before) second.1 (same ▸ earlier)

variable [IsStrictTotalOrder K before]

theorem eq_of_not_before {first second : K} (left : ¬ before first second) (right : ¬ before second first) :
    first = second := Std.Trichotomous.trichotomous (r := before) first second left right

/-- A sorted map is determined by what it returns for each key. -/
theorem Sorted.ext [DecidableEq K] {first second : Entries K V} (left : Sorted before first) (right : Sorted before second)
    (same : ∀ key, first.dlookup key = second.dlookup key) : first = second := by
  have perm : first ~ second :=
    lookup_ext left.nodupKeys right.nodupKeys fun key value => by rw [same key]
  refine Perm.eq_of_pairwise ?_ left right perm
  intro one other _ _ earlier later
  exact absurd later (asymm (r := before) earlier)

end Order

section Insert

variable {K : Type u} {V : Type v} (before : K → K → Prop) [DecidableRel before] [DecidableEq K]

/-- Insert a value at its key's place, replacing the value the key had. -/
def insert (key : K) (value : V) : Entries K V → Entries K V
  | [] => [⟨key, value⟩]
  | ⟨other, old⟩ :: rest =>
    if before key other then ⟨key, value⟩ :: ⟨other, old⟩ :: rest
    else if key = other then ⟨key, value⟩ :: rest
    else ⟨other, old⟩ :: insert key value rest

/-- The entries from the first one that does not come before the key. -/
def lowerBound (key : K) (entries : Entries K V) : Entries K V :=
  entries.dropWhile fun entry => before entry.1 key

theorem mem_of_mem_insert {key : K} {value : V} {entries : Entries K V} {entry : (_ : K) × V}
    (member : entry ∈ insert before key value entries) : entry = ⟨key, value⟩ ∨ entry ∈ entries := by
  induction entries with
  | nil => simpa [insert] using member
  | cons head rest ih =>
    rw [insert] at member
    split at member
    · simpa using member
    · split at member
      · rcases mem_cons.mp member with rfl | member
        · exact .inl rfl
        · exact .inr (mem_cons_of_mem _ member)
      · rcases mem_cons.mp member with rfl | member
        · exact .inr mem_cons_self
        · exact (ih member).imp id (mem_cons_of_mem _)

theorem dlookup_cons (key other : K) (value : V) (rest : Entries K V) :
    dlookup other ((⟨key, value⟩ : (_ : K) × V) :: rest) = if other = key then some value else dlookup other rest := by
  by_cases same : key = other
  · subst same
    simp
  · exact (dlookup_cons_ne rest _ (Ne.symm same)).trans (if_neg (Ne.symm same)).symm

theorem dlookup_insert_self (key : K) (value : V) (entries : Entries K V) :
    (insert before key value entries).dlookup key = some value := by
  induction entries with
  | nil => simp [insert]
  | cons head rest ih =>
    rw [insert]
    split
    · simp
    · split
      next same => simp
      next other => rw [dlookup_cons, if_neg other, ih]

theorem dlookup_insert_ne {key other : K} (value : V) (different : other ≠ key) (entries : Entries K V) :
    (insert before key value entries).dlookup other = entries.dlookup other := by
  induction entries with
  | nil => rw [insert, dlookup_cons, if_neg different]
  | cons head rest ih =>
    rw [insert]
    split
    · rw [dlookup_cons, if_neg different]
    · split
      next same => rw [dlookup_cons, dlookup_cons, if_neg different, if_neg (same ▸ different)]
      next => rw [dlookup_cons, dlookup_cons, ih]

theorem dlookup_insert (key other : K) (value : V) (entries : Entries K V) :
    (insert before key value entries).dlookup other = if other = key then some value else entries.dlookup other := by
  split
  next same => rw [same, dlookup_insert_self]
  next different => exact dlookup_insert_ne before value different entries

theorem dlookup_kerase_eq (key other : K) {entries : Entries K V} (unique : entries.NodupKeys) :
    (entries.kerase key).dlookup other = if other = key then none else entries.dlookup other := by
  split
  next same => rw [same, dlookup_kerase key unique]
  next different => exact dlookup_kerase_ne different

/-- A new key only adds its entry. -/
theorem insert_perm {key : K} (value : V) {entries : Entries K V} (fresh : key ∉ entries.keys) :
    insert before key value entries ~ ⟨key, value⟩ :: entries := by
  induction entries with
  | nil => simp [insert]
  | cons head rest ih =>
    have absent : key ≠ head.1 ∧ key ∉ rest.keys := by simpa using fresh
    rw [insert]
    split
    · exact Perm.refl _
    · rw [if_neg absent.1]
      exact ((ih absent.2).cons _).trans (Perm.swap _ _ _)

/-- A new key splits the map at its place. -/
theorem insert_split {key : K} (value : V) {entries : Entries K V} (fresh : key ∉ entries.keys) :
    ∃ front back, entries = front ++ back ∧ insert before key value entries = front ++ ⟨key, value⟩ :: back ∧
      (∀ entry ∈ front, ¬ before key entry.1) ∧ ∀ entry ∈ back.head?, before key entry.1 := by
  induction entries with
  | nil => exact ⟨[], [], rfl, rfl, by simp, by simp⟩
  | cons head rest ih =>
    have absent : key ≠ head.1 ∧ key ∉ rest.keys := by simpa using fresh
    rw [insert]
    split
    next earlier => exact ⟨[], head :: rest, rfl, rfl, by simp, by simpa using earlier⟩
    next later =>
      obtain ⟨front, back, whole, inserted, kept, next⟩ := ih absent.2
      rw [if_neg absent.1]
      refine ⟨head :: front, back, by rw [whole, cons_append], by rw [inserted, cons_append], ?_, next⟩
      exact forall_mem_cons.mpr ⟨later, kept⟩

variable [IsStrictTotalOrder K before]

theorem Sorted.insert {entries : Entries K V} (sorted : Sorted before entries) (key : K) (value : V) :
    Sorted before (SortedMap.insert before key value entries) := by
  induction entries with
  | nil => simp [SortedMap.insert, Sorted]
  | cons head rest ih =>
    rw [SortedMap.insert]
    split
    next earlier =>
      refine Pairwise.cons ?_ sorted
      intro entry member
      rcases mem_cons.mp member with rfl | member
      · exact earlier
      · exact IsTrans.trans _ _ _ earlier (sorted.head_before before member)
    next later =>
      split
      next same =>
        refine Pairwise.cons ?_ (sorted.tail before)
        intro entry member
        exact same ▸ sorted.head_before before member
      next different =>
        refine Pairwise.cons ?_ (ih (sorted.tail before))
        intro entry member
        rcases mem_of_mem_insert before member with rfl | member
        · by_contra earlier
          exact different (eq_of_not_before before later earlier)
        · exact sorted.head_before before member

/-- A known key has its value replaced in place. -/
theorem Sorted.insert_replace {entries : Entries K V} (sorted : Sorted before entries) {key : K} {old : V}
    (found : entries.dlookup key = some old) (value : V) :
    ∃ front back, entries = front ++ ⟨key, old⟩ :: back ∧
      SortedMap.insert before key value entries = front ++ ⟨key, value⟩ :: back := by
  induction entries with
  | nil => cases found
  | cons head rest ih =>
    obtain ⟨other, held⟩ := head
    rw [dlookup_cons] at found
    by_cases same : key = other
    · cases same
      cases (if_pos rfl).symm.trans found
      exact ⟨[], rest, rfl, by rw [SortedMap.insert, if_neg (irrefl key), if_pos rfl, nil_append]⟩
    · rw [if_neg same] at found
      obtain ⟨front, back, whole, replaced⟩ := ih (sorted.tail before) found
      have later : before other key := sorted.head_before before (of_mem_dlookup found)
      refine ⟨⟨other, held⟩ :: front, back, by rw [whole, cons_append], ?_⟩
      rw [SortedMap.insert, if_neg (asymm later), if_neg same, replaced, cons_append]

omit [DecidableEq K] in
theorem Sorted.not_before_of_mem_lowerBound {entries : Entries K V} (sorted : Sorted before entries) {key : K}
    {entry : (_ : K) × V} (member : entry ∈ lowerBound before key entries) : ¬ before entry.1 key := by
  induction entries with
  | nil => cases member
  | cons head rest ih =>
    rw [lowerBound, dropWhile_cons] at member
    split at member
    next => exact ih (sorted.tail before) member
    next stops =>
      have reached : ¬ before head.1 key := by simpa using stops
      rcases mem_cons.mp member with rfl | member
      · exact reached
      · intro earlier
        exact reached (IsTrans.trans _ _ _ (sorted.head_before before member) earlier)

omit [DecidableEq K] in
/-- What stands in front of a key is where a search for it stops. -/
theorem Sorted.takeWhile_middle {front back : Entries K V} {key : K} {value : V}
    (sorted : Sorted before (front ++ ⟨key, value⟩ :: back)) :
    (front ++ ⟨key, value⟩ :: back).takeWhile (fun entry => before entry.1 key) = front := by
  have earlier : ∀ entry ∈ front, decide (before entry.1 key) = true := fun entry member =>
    decide_eq_true ((sorted.around before).1 entry member)
  rw [takeWhile_append_of_pos earlier, takeWhile_cons_of_neg (by simp [irrefl (r := before) key]), append_nil]

omit [DecidableRel before] in
theorem Sorted.kerase_middle {front back : Entries K V} {key : K} {value : V}
    (sorted : Sorted before (front ++ ⟨key, value⟩ :: back)) :
    (front ++ ⟨key, value⟩ :: back).kerase key = front ++ back := by
  have fresh : key ∉ front.keys := by
    intro member
    obtain ⟨value, present⟩ := exists_of_mem_keys member
    exact irrefl (r := before) key ((sorted.around before).1 _ present)
  exact (kerase_append_right fresh).trans (congrArg (front ++ ·) (kerase_cons_eq rfl))

omit [DecidableRel before] [IsStrictTotalOrder K before] in
theorem Sorted.kerase {entries : Entries K V} (sorted : Sorted before entries) (key : K) :
    Sorted before (entries.kerase key) := sorted.sublist before (kerase_sublist key entries)

/-! ### Mapping the values -/

def mapValues {W : Type w} (change : V → W) (entries : Entries K V) : Entries K W :=
  entries.map fun entry => ⟨entry.1, change entry.2⟩

section mapValues

variable {W : Type w} (change : V → W)

omit [DecidableRel before] [DecidableEq K] [IsStrictTotalOrder K before] in
@[simp] theorem mapValues_keys (entries : Entries K V) : (mapValues change entries).map Sigma.fst = entries.map Sigma.fst := by
  simp only [mapValues, map_map, Function.comp_def]

omit [DecidableRel before] [IsStrictTotalOrder K before] in
theorem dlookup_mapValues (key : K) (entries : Entries K V) :
    (mapValues change entries).dlookup key = (entries.dlookup key).map change := by
  induction entries with
  | nil => rfl
  | cons entry rest ih =>
    rw [mapValues, map_cons, dlookup_cons, dlookup_cons, ← mapValues, ih]
    split <;> rfl

omit [IsStrictTotalOrder K before] in
theorem insert_mapValues (key : K) (value : V) (entries : Entries K V) :
    insert before key (change value) (mapValues change entries) = mapValues change (insert before key value entries) := by
  induction entries with
  | nil => rfl
  | cons entry rest ih =>
    rw [insert, mapValues, map_cons, insert, ← mapValues, ih]
    split
    · rfl
    · split <;> rfl

omit [DecidableEq K] [IsStrictTotalOrder K before] in
theorem lowerBound_mapValues (key : K) (entries : Entries K V) :
    lowerBound before key (mapValues change entries) = mapValues change (lowerBound before key entries) := dropWhile_map

end mapValues

/-! ### Inserting under a key that is there -/

theorem insert_insert (key : K) (first second : V) (entries : Entries K V) :
    insert before key second (insert before key first entries) = insert before key second entries := by
  have stops : ¬ before key key := irrefl (r := before) key
  induction entries with
  | nil => rw [insert, insert, insert, if_neg stops, if_pos rfl]
  | cons entry rest ih =>
    obtain ⟨other, old⟩ := entry
    rw [insert, insert]
    split
    · rw [insert, if_neg stops, if_pos rfl]
    next later =>
      split
      · rw [insert, if_neg stops, if_pos rfl]
      next different => rw [insert, if_neg later, if_neg different, ih]

theorem Sorted.insert_self {entries : Entries K V} (sorted : Sorted before entries) {key : K} {value : V}
    (found : entries.dlookup key = some value) : SortedMap.insert before key value entries = entries := by
  apply (sorted.insert before key value).ext before sorted
  intro other
  rw [dlookup_insert]
  split
  next same => rw [same, found]
  next => rfl

end Insert

/-! ### Comparators under which different keys are equivalent -/

section Emplace

variable {K : Type u} {V : Type v} (before : K → K → Prop)

/-- To a container keys are the same that come neither before nor behind each other. -/
def Equivalent (first second : K) : Prop := ¬ before first second ∧ ¬ before second first

variable [DecidableRel before]

/-- Insert a value at its key's place, unless one is there: then that one is returned. -/
def emplace (key : K) (value : V) : Entries K V → Except V (Entries K V)
  | [] => .ok [⟨key, value⟩]
  | ⟨other, held⟩ :: rest =>
    if before key other then .ok (⟨key, value⟩ :: ⟨other, held⟩ :: rest)
    else if before other key then (emplace key value rest).map (⟨other, held⟩ :: ·)
    else .error held

variable {key : K} {value held : V} {entries more : Entries K V}

theorem emplace_error (taken : emplace before key value entries = .error held) :
    ∃ entry ∈ entries, entry.2 = held ∧ Equivalent before key entry.1 := by
  induction entries with
  | nil => cases taken
  | cons entry rest ih =>
    rw [emplace] at taken
    split at taken
    next => cases taken
    next later =>
      split at taken
      next =>
        cases deeper : emplace before key value rest with
        | error found =>
          rw [deeper] at taken
          cases taken
          obtain ⟨entry, member, stands⟩ := ih deeper
          exact ⟨entry, mem_cons_of_mem _ member, stands⟩
        | ok entries =>
          rw [deeper] at taken
          cases taken
      next earlier =>
        cases taken
        exact ⟨entry, mem_cons_self, rfl, later, earlier⟩

/-- Where a key finds its place. -/
theorem emplace_cons_ok {head : (_ : K) × V} {rest : Entries K V} (placed : emplace before key value (head :: rest) = .ok more) :
    before key head.1 ∧ more = ⟨key, value⟩ :: head :: rest ∨
      before head.1 key ∧ ∃ later, emplace before key value rest = .ok later ∧ more = head :: later := by
  rw [emplace] at placed
  split at placed
  next earlier =>
    cases placed
    exact Or.inl ⟨earlier, rfl⟩
  next =>
    split at placed
    next passed =>
      cases deeper : emplace before key value rest with
      | error found =>
        rw [deeper] at placed
        cases placed
      | ok later =>
        rw [deeper] at placed
        cases placed
        exact Or.inr ⟨passed, later, rfl, rfl⟩
    next => cases placed

theorem emplace_ok_perm (placed : emplace before key value entries = .ok more) : more ~ ⟨key, value⟩ :: entries := by
  induction entries generalizing more with
  | nil =>
    cases placed
    exact Perm.refl _
  | cons head rest ih =>
    rcases emplace_cons_ok before placed with ⟨_, rfl⟩ | ⟨_, later, deeper, rfl⟩
    · exact Perm.refl _
    · exact ((ih deeper).cons _).trans (Perm.swap _ _ _)

variable [IsTrans K before]

/-- No key that is there is equivalent to one that finds a place. -/
theorem Sorted.emplace_fresh (sorted : Sorted before entries) (placed : emplace before key value entries = .ok more) :
    ∀ entry ∈ entries, ¬ Equivalent before key entry.1 := by
  induction entries generalizing more with
  | nil => exact fun _ member => absurd member not_mem_nil
  | cons head rest ih =>
    rcases emplace_cons_ok before placed with ⟨earlier, _⟩ | ⟨passed, _, deeper, _⟩
    · refine forall_mem_cons.mpr ⟨fun same => same.1 earlier, fun entry member same => same.1 ?_⟩
      exact IsTrans.trans _ _ _ earlier (sorted.head_before before member)
    · exact forall_mem_cons.mpr ⟨fun same => same.2 passed, ih (sorted.tail before) deeper⟩

theorem Sorted.emplace (sorted : Sorted before entries) (placed : emplace before key value entries = .ok more) :
    Sorted before more := by
  induction entries generalizing more with
  | nil =>
    cases placed
    exact pairwise_singleton _ _
  | cons head rest ih =>
    rcases emplace_cons_ok before placed with ⟨earlier, rfl⟩ | ⟨passed, later, deeper, rfl⟩
    · refine Pairwise.cons (forall_mem_cons.mpr ⟨earlier, fun entry member => ?_⟩) sorted
      exact IsTrans.trans _ _ _ earlier (sorted.head_before before member)
    · refine Pairwise.cons ?_ (ih (sorted.tail before) deeper)
      intro entry member
      rcases mem_cons.mp ((emplace_ok_perm before deeper).mem_iff.mp member) with rfl | member
      · exact passed
      · exact sorted.head_before before member

end Emplace
/-! ### Maps that carry their order -/

/-- A map whose entries are sorted by construction. -/
structure Map (K : Type u) (V : Type v) (before : K → K → Prop) where
  entries : Entries K V
  sorted : Sorted before entries

namespace Map

variable {K : Type u} {V : Type v} {before : K → K → Prop} [DecidableEq K]

def empty : Map K V before := ⟨[], .nil⟩

def find? (map : Map K V before) (key : K) : Option V := map.entries.dlookup key

def erase (map : Map K V before) (key : K) : Map K V before := ⟨map.entries.kerase key, map.sorted.kerase before key⟩

def first? (map : Map K V before) : Option ((_ : K) × V) := map.entries.head?

def last? (map : Map K V before) : Option ((_ : K) × V) := map.entries.getLast?

@[simp] theorem find?_empty (key : K) : (empty : Map K V before).find? key = none := rfl

theorem first?_eq_none {map : Map K V before} (absent : map.first? = none) (key : K) : map.find? key = none := by
  obtain ⟨entries, sorted⟩ := map
  cases head?_eq_none_iff.mp absent
  rfl

theorem last?_eq_none {map : Map K V before} (absent : map.last? = none) (key : K) : map.find? key = none := by
  obtain ⟨entries, sorted⟩ := map
  cases getLast?_eq_none_iff.mp absent
  rfl

theorem erase_fresh {map : Map K V before} {key : K} (absent : map.find? key = none) : map.erase key = map := by
  obtain ⟨entries, sorted⟩ := map
  have same : entries.kerase key = entries := kerase_of_notMem_keys (dlookup_eq_none.mp absent)
  unfold erase
  congr

variable [IsStrictTotalOrder K before]

@[simp] theorem find?_erase (map : Map K V before) (key other : K) :
    (map.erase key).find? other = if other = key then none else map.find? other :=
  dlookup_kerase_eq key other (map.sorted.nodupKeys before)

theorem find?_eq_some {map : Map K V before} {key : K} {value : V} : map.find? key = some value ↔ ⟨key, value⟩ ∈ map.entries :=
  mem_dlookup_iff (map.sorted.nodupKeys before)

theorem ext_find? {first second : Map K V before} (same : ∀ key, first.find? key = second.find? key) : first = second := by
  obtain ⟨entries, sorted⟩ := first
  obtain ⟨others, ordered⟩ := second
  cases sorted.ext before ordered same
  rfl

theorem first?_least {map : Map K V before} {entry : (_ : K) × V} (first : map.first? = some entry) :
    map.find? entry.1 = some entry.2 ∧ ∀ key, map.find? key ≠ none → key = entry.1 ∨ before entry.1 key := by
  obtain ⟨entries, sorted⟩ := map
  cases entries with
  | nil => cases first
  | cons head rest =>
    cases first
    refine ⟨find?_eq_some.mpr mem_cons_self, fun key found => ?_⟩
    obtain ⟨value, same⟩ := Option.ne_none_iff_exists'.mp found
    rcases mem_cons.mp (find?_eq_some.mp same) with head | member
    · exact .inl (congrArg Sigma.fst head)
    · exact .inr (sorted.head_before before member)

theorem last?_greatest {map : Map K V before} {entry : (_ : K) × V} (last : map.last? = some entry) :
    map.find? entry.1 = some entry.2 ∧ ∀ key, map.find? key ≠ none → key = entry.1 ∨ before key entry.1 := by
  obtain ⟨entries, sorted⟩ := map
  obtain ⟨front, rfl⟩ := getLast?_eq_some_iff.mp last
  refine ⟨find?_eq_some.mpr (mem_append_right _ mem_cons_self), fun key found => ?_⟩
  obtain ⟨value, same⟩ := Option.ne_none_iff_exists'.mp found
  rcases mem_append.mp (find?_eq_some.mp same) with member | member
  · exact .inr ((pairwise_append.mp sorted).2.2 _ member _ mem_cons_self)
  · exact .inl (congrArg Sigma.fst (mem_singleton.mp member))

variable [DecidableRel before]

def insertOrAssign (map : Map K V before) (key : K) (value : V) : Map K V before :=
  ⟨insert before key value map.entries, map.sorted.insert before key value⟩

@[simp] theorem find?_insertOrAssign (map : Map K V before) (key other : K) (value : V) :
    (map.insertOrAssign key value).find? other = if other = key then some value else map.find? other :=
  dlookup_insert before key other value map.entries

/-- Assigning a key puts one entry in the place of the one it had. -/
theorem insertOrAssign_perm {map : Map K V before} {key : K} {old : V} (found : map.find? key = some old) (value : V) :
    ∃ rest, map.entries ~ ⟨key, old⟩ :: rest ∧ (map.insertOrAssign key value).entries ~ ⟨key, value⟩ :: rest := by
  obtain ⟨front, back, whole, replaced⟩ := map.sorted.insert_replace before found value
  exact ⟨front ++ back, whole ▸ perm_middle, (replaced ▸ perm_middle : insert before key value map.entries ~ _)⟩

theorem insertOrAssign_fresh {map : Map K V before} {key : K} (fresh : map.find? key = none) (value : V) :
    (map.insertOrAssign key value).entries ~ ⟨key, value⟩ :: map.entries :=
  insert_perm before value (dlookup_eq_none.mp fresh)

/-- Where a new key goes. -/
theorem split_fresh {map : Map K V before} {key : K} (absent : map.find? key = none) (value : V) :
    ∃ front back, map.entries = front ++ back ∧ (map.insertOrAssign key value).entries = front ++ ⟨key, value⟩ :: back ∧
      (∀ entry ∈ front, before entry.1 key) ∧ ∀ entry ∈ back, before key entry.1 := by
  obtain ⟨front, back, whole, inserted, -⟩ := insert_split before value (dlookup_eq_none.mp absent)
  have sorted := (map.insertOrAssign key value).sorted
  have same : (map.insertOrAssign key value).entries = front ++ ⟨key, value⟩ :: back := inserted
  rw [same] at sorted
  exact ⟨front, back, whole, same, sorted.around before⟩

theorem split_absent {map : Map K V before} {key : K} (absent : map.find? key = none) :
    ∃ front back, map.entries = front ++ back ∧ (∀ entry ∈ front, before entry.1 key) ∧ ∀ entry ∈ back, before key entry.1 := by
  cases whole : map.entries with
  | nil => exact ⟨[], [], rfl, fun _ member => absurd member not_mem_nil, fun _ member => absurd member not_mem_nil⟩
  | cons head rest =>
    obtain ⟨front, back, same, -, passed, later⟩ := split_fresh absent head.2
    exact ⟨front, back, whole.symm.trans same, passed, later⟩

/-- Where a known key stands. -/
theorem split_found {map : Map K V before} {key : K} {old : V} (found : map.find? key = some old) (value : V) :
    ∃ front back, map.entries = front ++ ⟨key, old⟩ :: back ∧
      (map.insertOrAssign key value).entries = front ++ ⟨key, value⟩ :: back ∧ (map.erase key).entries = front ++ back ∧
      (∀ entry ∈ front, before entry.1 key) ∧ ∀ entry ∈ back, before key entry.1 := by
  obtain ⟨front, back, whole, replaced⟩ := map.sorted.insert_replace before found value
  have sorted := map.sorted
  rw [whole] at sorted
  refine ⟨front, back, whole, replaced, ?_, sorted.around before⟩
  exact (congrArg (List.kerase key) whole).trans (sorted.kerase_middle before)

end Map

namespace Map

/-! ### Entries that are reached through iterators -/

section Iterators

variable {K : Type u} {V : Type v} {before : K → K → Prop}

/-- `erase` of the entry that holds a value; there has to be one. -/
def eraseValue? [DecidableEq V] (map : Map K V before) (value : V) : Option (Map K V before) :=
  if value ∈ map.entries.map Sigma.snd then
    some ⟨map.entries.eraseP (·.2 = value), map.sorted.sublist before eraseP_sublist⟩
  else none

theorem eraseValue?_perm [DecidableEq V] {map next : Map K V before} {value : V} (erased : map.eraseValue? value = some next) :
    ∃ key, map.entries ~ ⟨key, value⟩ :: next.entries := by
  unfold eraseValue? at erased
  split at erased
  next present =>
    cases erased
    obtain ⟨entry, member, rfl⟩ := mem_map.mp present
    obtain ⟨found, front, back, _, same, whole, rest⟩ := exists_of_eraseP (p := fun other => other.2 = entry.2) member (by simp)
    obtain ⟨key, value⟩ := found
    obtain rfl : value = entry.2 := by simpa using same
    refine ⟨key, ?_⟩
    dsimp only
    rw [rest, whole]
    exact perm_middle
  next => cases erased

theorem eraseValue?_of_mem [DecidableEq V] {map : Map K V before} {value : V} (present : value ∈ map.entries.map Sigma.snd) :
    ∃ next, map.eraseValue? value = some next := ⟨_, if_pos present⟩

variable [DecidableRel before] [IsTrans K before]

def tryEmplace (map : Map K V before) (key : K) (value : V) : Except V (Map K V before) :=
  match placed : emplace before key value map.entries with
  | .ok entries => .ok ⟨entries, map.sorted.emplace before placed⟩
  | .error held => .error held

theorem tryEmplace_ok {map next : Map K V before} {key : K} {value : V} (placed : map.tryEmplace key value = .ok next) :
    next.entries ~ ⟨key, value⟩ :: map.entries ∧ ∀ entry ∈ map.entries, ¬ Equivalent before key entry.1 := by
  unfold tryEmplace at placed
  split at placed
  next entries found =>
    cases placed
    exact ⟨emplace_ok_perm before found, map.sorted.emplace_fresh before found⟩
  next => cases placed

theorem tryEmplace_error {map : Map K V before} {key : K} {value held : V} (taken : map.tryEmplace key value = .error held) :
    ∃ entry ∈ map.entries, entry.2 = held ∧ Equivalent before key entry.1 := by
  unfold tryEmplace at taken
  split at taken
  next => cases taken
  next found =>
    cases taken
    exact emplace_error before found

end Iterators

end Map

end FinanceTech.Library.SortedMap
