import FinanceTech.BoundedCollections
import FinanceTech.Library.Runs

/-! The map of constant size keeps the smallest keys that came, until a key that
is there comes again while the map is full: nothing is inserted, and the last
element goes all the same. -/

namespace FinanceTech.Proofs.ConstantSizeMap
open List Library SortedMap MapWithConstantSize

variable {K V : Type} [LinearOrder K] {maxSize : Nat} {map : Container K V} {key : K} {value : V}

def pushItem (maxSize : Nat) (map : Container K V) (item : (_ : K) × V) : Option (Container K V) :=
  (push maxSize map item.1 item.2).map Prod.fst

/-- A full map is given no key that it has, but for its last one. -/
def Spares (maxSize : Nat) (map : Container K V) (item : (_ : K) × V) : Prop :=
  map.entries.length = maxSize → item.1 ∈ map.entries.keys → ∃ last ∈ map.last?, last.1 = item.1

instance (map : Container K V) (item : (_ : K) × V) : Decidable (Spares maxSize map item) :=
  inferInstanceAs (Decidable (_ → _ → _))

def Idle (maxSize : Nat) (map : Container K V) (item : (_ : K) × V) : Prop :=
  item.1 ∈ map.entries.keys → pushItem maxSize map item = some map

theorem found_of_mem (member : key ∈ map.entries.keys) : ∃ old, map.find? key = some old := by
  obtain ⟨old, present⟩ := exists_of_mem_keys member
  exact ⟨old, Map.find?_eq_some.mpr present⟩

private theorem mem_of_found {old : V} (found : map.find? key = some old) : key ∈ map.entries.keys :=
  mem_keys_of_mem (Map.find?_eq_some.mp found)

private theorem pushItem_room (room : map.entries.length ≠ maxSize) : pushItem maxSize map ⟨key, value⟩ = some (map.emplace key value) := by
  simp only [pushItem, push, isBeyond, if_neg room.symm, Option.bind_eq_bind, Option.bind_some, Bool.false_eq_true, if_false, Option.map_some]

private theorem pushItem_beyond {last : (_ : K) × V} (full : map.entries.length = maxSize) (ends : map.last? = some last) (beyond : last.1 ≤ key) :
    pushItem maxSize map ⟨key, value⟩ = some map := by
  simp only [pushItem, push, isBeyond, if_pos full.symm, ends, Option.map_some, decide_eq_true beyond, Option.bind_eq_bind,
    Option.bind_some, if_true]

theorem pushItem_drops {last : (_ : K) × V} (full : map.entries.length = maxSize) (ends : map.last? = some last) (ahead : key < last.1) :
    ∃ next, pushItem maxSize map ⟨key, value⟩ = some next ∧ next.entries = (map.emplace key value).entries.dropLast := by
  have inside : (decide (key ≥ last.1)) = false := decide_eq_false (not_le.mpr ahead)
  have held : ∃ other, (map.emplace key value).last? = some other := by
    cases found : map.find? key with
    | some old => exact ⟨last, by rw [Map.emplace_found found, ends]⟩
    | none =>
      obtain ⟨front, back, -, inserted, -⟩ := Map.split_fresh found value
      rw [Map.emplace_fresh found, Map.last?, inserted]
      exact ⟨_, getLast?_eq_some_getLast (by simp)⟩
  obtain ⟨other, there⟩ := held
  refine ⟨⟨(map.emplace key value).entries.dropLast, (Map.sorted _).sublist _ (dropLast_sublist _)⟩, ?_, rfl⟩
  simp only [pushItem, push, isBeyond, if_pos full.symm, ends, Option.map_some, inside, Option.bind_eq_bind, Option.bind_some,
    Bool.false_eq_true, if_false, eraseLast, there]

private theorem pushItem_evicts {last : (_ : K) × V} (full : map.entries.length = maxSize) (ends : map.last? = some last) (ahead : key < last.1)
    (absent : map.find? key = none) : pushItem maxSize map ⟨key, value⟩ = some ((map.emplace key value).best maxSize) := by
  obtain ⟨next, pushed, left⟩ := @pushItem_drops _ _ _ _ _ _ value _ full ends ahead
  rw [pushed]
  refine congrArg some (Map.ext_entries (left.trans ?_))
  have longer : (map.emplace key value).entries.length = maxSize + 1 := by
    rw [Map.emplace_fresh absent, (Map.insertOrAssign_fresh absent value).length_eq, length_cons, full]
  rw [dropLast_eq_take, longer]
  rfl

private theorem pushItem_refuses {last : (_ : K) × V} (full : map.entries.length = maxSize) (ends : map.last? = some last) (beyond : last.1 ≤ key) :
    pushItem maxSize map ⟨key, value⟩ = some ((map.emplace key value).best maxSize) := by
  have fits := full.le
  rw [pushItem_beyond full ends beyond]
  cases found : map.find? key with
  | some old => rw [Map.emplace_found found, Map.best_all fits]
  | none =>
    have passed : ∀ entry ∈ map.entries, entry.1 < key := by
      intro entry member
      have present : map.find? entry.1 ≠ none := by
        rw [Map.find?_eq_some.mpr member]
        exact Option.some_ne_none _
      have below : entry.1 ≤ key := by
        rcases (Map.last?_greatest ends).2 entry.1 present with own | earlier
        · exact own ▸ beyond
        · exact (le_of_lt earlier).trans beyond
      refine lt_of_le_of_ne below fun same => present ?_
      rw [same, found]
    have cut := Map.best_emplace_beyond (append_nil map.entries).symm passed full.ge value
    rw [Map.best_all fits] at cut
    refine congrArg some (Map.ext_entries ?_)
    rw [cut, take_of_length_le fits]

theorem pushItem_best (positive : 0 < maxSize) (fits : map.entries.length ≤ maxSize) (spares : Spares maxSize map ⟨key, value⟩) :
    pushItem maxSize map ⟨key, value⟩ = some ((map.emplace key value).best maxSize) := by
  by_cases full : map.entries.length = maxSize
  · obtain ⟨last, ends⟩ : ∃ last, map.last? = some last := by
      refine ⟨_, getLast?_eq_some_getLast fun empty => ?_⟩
      rw [empty, length_nil] at full
      omega
    rcases lt_or_ge key last.1 with ahead | beyond
    · apply pushItem_evicts full ends ahead
      cases found : map.find? key with
      | none => rfl
      | some old =>
        obtain ⟨other, same, equal⟩ := spares full (mem_of_found found)
        rw [ends] at same
        cases same
        exact absurd equal ahead.ne'
    · exact pushItem_refuses full ends beyond
  · rw [pushItem_room full, Map.best_all]
    cases found : map.find? key with
    | some old =>
      rw [Map.emplace_found found]
      exact fits
    | none =>
      rw [Map.emplace_fresh found, (Map.insertOrAssign_fresh found value).length_eq, length_cons]
      omega

theorem spares_of_idle {item : (_ : K) × V} (idle : Idle maxSize map item) : Spares maxSize map item := by
  intro full member
  obtain ⟨old, found⟩ := found_of_mem member
  obtain ⟨last, ends⟩ : ∃ last, map.last? = some last :=
    ⟨_, getLast?_eq_some_getLast (ne_nil_of_mem (Map.find?_eq_some.mp found))⟩
  refine ⟨last, ends, ?_⟩
  by_contra other
  have ahead : item.1 < last.1 := by
    have present : map.find? item.1 ≠ none := by
      rw [found]
      exact Option.some_ne_none _
    exact ((Map.last?_greatest ends).2 item.1 present).resolve_left (Ne.symm other)
  obtain ⟨next, pushed, left⟩ := @pushItem_drops _ _ _ _ _ _ item.2 _ full ends ahead
  have same : map = next := Option.some.inj ((idle member).symm.trans pushed)
  rw [Map.emplace_found found, ← same] at left
  have shorter := congrArg List.length left
  have held := length_pos_of_mem (Map.find?_eq_some.mp found)
  rw [length_dropLast] at shorter
  omega

theorem pushes_best (positive : 0 < maxSize) (fits : map.entries.length ≤ maxSize) {items : Entries K V}
    (spares : Runs.AtEveryStepM (pushItem maxSize) (Spares maxSize) map items) :
    items.foldlM (pushItem maxSize) map = some (items.foldl (fun map item => (map.emplace item.1 item.2).best maxSize) map) := by
  induction items generalizing map with
  | nil => rfl
  | cons item rest ih =>
    obtain ⟨now, later⟩ := spares
    have moved := pushItem_best positive fits now
    rw [moved] at later
    rw [foldlM_cons, moved]
    exact ih (length_take_le _ _) later

/-- At every point of a run the map holds the smallest of the keys that came, and
a push of a key that is there changes nothing. -/
structure KeepsSmallest (maxSize : Nat) (items : Entries K V) : Prop where
  holds : ∀ before, before <+: items → ∃ map, before.foldlM (pushItem maxSize) Map.empty = some map ∧
    BestOf (· < ·) maxSize before.keys map.entries.keys
  idle : ∀ before item after map, items = before ++ item :: after → before.foldlM (pushItem maxSize) Map.empty = some map →
    Idle maxSize map item

/-- The map keeps the smallest keys exactly in the runs in which a full map is
never given a key that it has, but for its last one. -/
theorem keepsSmallest_iff (positive : 0 < maxSize) (items : Entries K V) :
    KeepsSmallest maxSize items ↔ Runs.AtEveryStepM (pushItem maxSize) (Spares maxSize) Map.empty items := by
  constructor
  · intro keeps
    apply (Runs.atEveryStepM_iff items).mpr
    intro before item after middle split reached
    exact spares_of_idle (keeps.idle before item after middle split reached)
  · intro spares
    have run : ∀ before, before <+: items → before.foldlM (pushItem maxSize) Map.empty =
        some (((Map.empty : Container K V).emplaceAll before).best maxSize) := by
      intro before inside
      have start : (Map.empty : Container K V).best maxSize = Map.empty := Map.best_all (Nat.zero_le _)
      have streamed := Map.best_emplaceAll (Map.empty : Container K V) before maxSize
      rw [start] at streamed
      rw [← streamed]
      exact pushes_best positive (Nat.zero_le _) (spares.of_prefix inside)
    refine ⟨fun before inside => ⟨_, run before inside, bestOf_emplaceAll before maxSize⟩, ?_⟩
    intro before item after middle split reached member
    have inside : before <+: items := split ▸ prefix_append _ _
    have now := (Runs.atEveryStepM_iff items).mp spares before item after middle split reached
    have fits : middle.entries.length ≤ maxSize := by
      rw [run before inside] at reached
      cases reached
      exact length_take_le _ _
    obtain ⟨old, found⟩ := found_of_mem member
    have pushed := pushItem_best positive fits now
    rwa [Map.emplace_found found, Map.best_all fits] at pushed

/-- A map of two that is full, refuses, takes and evicts. -/
theorem keepsSmallest_iff_two :
    let items : Entries Int Int := [⟨3, 30⟩, ⟨3, 31⟩, ⟨5, 50⟩, ⟨5, 51⟩, ⟨7, 70⟩, ⟨4, 40⟩]
    0 < 2 ∧ (KeepsSmallest 2 items ↔ Runs.AtEveryStepM (pushItem 2) (Spares 2) Map.empty items) := by
  intro items
  exact ⟨by decide, keepsSmallest_iff (by decide) items⟩

/-- The first of two keys comes again, and the second one is gone. -/
theorem repeated_key_evicts :
    let items : Entries Int Int := [⟨1, 10⟩, ⟨2, 20⟩, ⟨1, 11⟩]
    0 < 2 ∧ ∃ map, items.foldlM (pushItem 2) Map.empty = some map ∧ map.entries.keys = [1] ∧
      ¬ BestOf (· < ·) 2 items.keys map.entries.keys := by
  intro items
  refine ⟨by decide, ?_⟩
  have ended : (items.foldlM (pushItem 2) (Map.empty : Container Int Int)).map (fun map => map.entries.keys) = some [1] := by decide
  obtain ⟨map, reached, left⟩ := Option.map_eq_some_iff.mp ended
  refine ⟨map, reached, left, fun best => ?_⟩
  have size := best.size
  rw [left] at size
  exact absurd size (by decide)

end FinanceTech.Proofs.ConstantSizeMap
