import Mathlib.Data.List.Nodup
import Mathlib.Logic.Function.Basic

/-! Elements that stand in several lists and are found by their keys. Lists and
index hold handles; what a handle holds has a key, and the one list it belongs
in. These rules say which elements may arrive, leave and change. -/

namespace FinanceTech.Library.Index
open List Function

universe u v w x

/-- Records of a family each keep several lists: writing one of them. -/
theorem update_member {R : Type u} {L : Type v} {C : Type w} {D : Type x} [DecidableEq C] [DecidableEq D] (get : R → D → L)
    (set : R → L → D → R) (law : ∀ record list side other, get (set record list side) other = if other = side then list else get record other)
    (family : C → R) (name : C) (side : D) (list : L) :
    (fun spot : C × D => get (update family name (set (family name) list side) spot.1) spot.2) =
      update (fun spot => get (family spot.1) spot.2) (name, side) list := by
  funext spot
  cases spot with
  | mk other place =>
    by_cases same : other = name
    · subst same
      simp [law, update_apply]
    · have apart : (other, place) ≠ (name, side) := fun whole => same (congrArg Prod.fst whole)
      rw [update_of_ne apart]
      simp only [update_of_ne same]

variable {K : Type u} {E : Type v} {A : Type w} {P : Type x}

/-- Every key of the index has one listed element, in one place and with that key,
and every listed element has one key. -/
structure OneToOne (key : E → K) (held : A → Option E) (index : K → Option A) (listed : P → List A) : Prop where
  found : ∀ name handle, index name = some handle →
    (∃! spot, handle ∈ listed spot) ∧ ∃ element, held handle = some element ∧ key element = name
  mapped : ∀ spot handle, handle ∈ listed spot → ∃! name, index name = some handle
  once : ∀ spot, (listed spot).Nodup

/-- The same, with every element in the list it belongs in. -/
structure Indexed (key : E → K) (place : E → P) (held : A → Option E) (index : K → Option A) (listed : P → List A) : Prop where
  found : ∀ name handle, index name = some handle →
    ∃ element, held handle = some element ∧ key element = name ∧ handle ∈ listed (place element)
  mapped : ∀ spot handle, handle ∈ listed spot →
    ∃ element, held handle = some element ∧ place element = spot ∧ index (key element) = some handle
  once : ∀ spot, (listed spot).Nodup

variable {key : E → K} {place : E → P} {held held' : A → Option E} {index index' : K → Option A} {listed listed' : P → List A}
  {handle fresh : A} {element other : E} {name : K}

theorem Indexed.initial : Indexed key place held (fun _ => none) (fun _ => []) where
  found _ _ known := nomatch known
  mapped _ _ member := nomatch member
  once _ := nodup_nil

theorem Indexed.place_eq (indexed : Indexed key place held index listed) (holds : held handle = some element) {spot : P}
    (member : handle ∈ listed spot) : place element = spot := by
  obtain ⟨found, same, placed, _⟩ := indexed.mapped spot handle member
  cases holds.symm.trans same
  exact placed

theorem Indexed.key_eq (indexed : Indexed key place held index listed) (holds : held handle = some element)
    (known : index name = some handle) : key element = name := by
  obtain ⟨found, same, named, _⟩ := indexed.found name handle known
  cases holds.symm.trans same
  exact named

theorem Indexed.oneToOne (indexed : Indexed key place held index listed) : OneToOne key held index listed where
  found name handle known := by
    obtain ⟨element, holds, named, member⟩ := indexed.found name handle known
    refine ⟨⟨_, member, ?_⟩, element, holds, named⟩
    intro spot also
    exact (indexed.place_eq holds also).symm
  mapped spot handle member := by
    obtain ⟨element, holds, _, known⟩ := indexed.mapped spot handle member
    refine ⟨_, known, ?_⟩
    intro name also
    exact (indexed.key_eq holds also).symm
  once := indexed.once

/-- An element that is still listed is still found by its key. -/
theorem Indexed.still_found (indexed : Indexed key place held index listed) (next : OneToOne key held' index' listed')
    (known : index name = some handle) (same : held' handle = held handle) {spot : P} (member : handle ∈ listed' spot) :
    index' name = some handle := by
  obtain ⟨element, holds, rfl, _⟩ := indexed.found name handle known
  obtain ⟨other, found, _⟩ := next.mapped spot handle member
  obtain ⟨_, also, holding, rfl⟩ := next.found other handle found
  cases holding.symm.trans (same.trans holds)
  exact found

/-! ### What keeps the index -/

variable [DecidableEq A]

/-- An element changes, but not its key or its place. -/
theorem Indexed.change (indexed : Indexed key place held index listed) (holds : held handle = some element)
    (named : key other = key element) (placed : place other = place element) :
    Indexed key place (update held handle (some other)) index listed where
  found name reached known := by
    by_cases same : reached = handle
    · subst same
      obtain ⟨found, also, rfl, member⟩ := indexed.found name reached known
      cases holds.symm.trans also
      exact ⟨other, update_self _ _ _, named, placed ▸ member⟩
    · rw [update_of_ne same]
      exact indexed.found name reached known
  mapped spot reached member := by
    by_cases same : reached = handle
    · subst same
      obtain ⟨found, also, rfl, known⟩ := indexed.mapped spot reached member
      cases holds.symm.trans also
      exact ⟨other, update_self _ _ _, placed, named ▸ known⟩
    · rw [update_of_ne same]
      exact indexed.mapped spot reached member
  once := indexed.once

variable [DecidableEq K] [DecidableEq P]

omit [DecidableEq A] [DecidableEq K] in
/-- What is listed when one element has arrived. -/
theorem mem_arrived {spot other : P} {more : List A} (perm : more ~ fresh :: listed spot) :
    handle ∈ update listed spot more other ↔ handle = fresh ∧ other = spot ∨ handle ∈ listed other := by
  by_cases same : other = spot
  · subst same
    rw [update_self, perm.mem_iff, mem_cons]
    simp
  · rw [update_of_ne same]
    simp [same]

/-- A new element arrives under a key that has none. -/
theorem Indexed.arrive (indexed : Indexed key place held index listed) (unheld : held fresh = none)
    (absent : index (key element) = none) {more : List A} (perm : more ~ fresh :: listed (place element)) :
    Indexed key place (update held fresh (some element)) (update index (key element) (some fresh))
      (update listed (place element) more) where
  found name reached known := by
    by_cases same : name = key element
    · subst same
      rw [update_self] at known
      obtain rfl := Option.some.inj known
      exact ⟨element, update_self _ _ _, rfl, (mem_arrived perm).mpr (Or.inl ⟨rfl, rfl⟩)⟩
    · rw [update_of_ne same] at known
      obtain ⟨found, holds, named, member⟩ := indexed.found name reached known
      have old : reached ≠ fresh := by
        rintro rfl
        cases unheld.symm.trans holds
      exact ⟨found, by rwa [update_of_ne old], named, (mem_arrived perm).mpr (Or.inr member)⟩
  mapped spot reached member := by
    rcases (mem_arrived perm).mp member with ⟨rfl, rfl⟩ | member
    · exact ⟨element, update_self _ _ _, rfl, update_self _ _ _⟩
    · obtain ⟨found, holds, placed, known⟩ := indexed.mapped spot reached member
      have old : reached ≠ fresh := by
        rintro rfl
        cases unheld.symm.trans holds
      have apart : key found ≠ key element := by
        intro same
        cases absent.symm.trans (same ▸ known)
      exact ⟨found, by rwa [update_of_ne old], placed, by rwa [update_of_ne apart]⟩
  once spot := by
    by_cases same : spot = place element
    · subst same
      rw [update_self, perm.nodup_iff, nodup_cons]
      refine ⟨?_, indexed.once _⟩
      intro member
      obtain ⟨found, holds, _⟩ := indexed.mapped _ _ member
      cases unheld.symm.trans holds
    · rw [update_of_ne same]
      exact indexed.once spot

/-- When the index is still right after an arrival, no element had the key before. -/
theorem Indexed.absent_of_arrived (indexed : Indexed key place held index listed) (unheld : held fresh = none) {spot : P} {more : List A}
    (perm : more ~ fresh :: listed spot)
    (next : OneToOne key (update held fresh (some element)) (update index name (some fresh)) (update listed spot more)) :
    index name = none := by
  cases known : index name with
  | none => rfl
  | some handle =>
    obtain ⟨found, holds, _, member⟩ := indexed.found name handle known
    have old : handle ≠ fresh := by
      rintro rfl
      cases unheld.symm.trans holds
    have stays : handle ∈ update listed spot more (place found) := (mem_arrived perm).mpr (Or.inr member)
    have still := indexed.still_found next known (update_of_ne old _ _) stays
    rw [update_self] at still
    exact absurd (Option.some.inj still).symm old

omit [DecidableEq A] [DecidableEq P] in
/-- When the index is right after a key was given to an element that was there, the key was its own. -/
theorem Indexed.eq_of_given (indexed : Indexed key place held index listed) (known : index name = some handle) {spot : P} {given : A}
    (member : given ∈ listed spot) (same : held' given = held given)
    (next : OneToOne key held' (update index name (some given)) listed') : given = handle := by
  obtain ⟨element, holds, _, own⟩ := indexed.mapped spot given member
  obtain ⟨_, also, holding, rfl⟩ := next.found name given (update_self _ _ _)
  cases holding.symm.trans (same.trans holds)
  exact Option.some.inj (own.symm.trans known)

omit [DecidableEq A] [DecidableEq K] in
/-- What is listed when an element has left. -/
theorem Indexed.mem_left (indexed : Indexed key place held index listed) (holds : held handle = some element) {fewer : List A}
    (perm : listed (place element) ~ handle :: fewer) {spot : P} {reached : A} :
    reached ∈ update listed (place element) fewer spot ↔ reached ≠ handle ∧ reached ∈ listed spot := by
  by_cases same : spot = place element
  · subst same
    have distinct := indexed.once (place element)
    rw [perm.nodup_iff, nodup_cons] at distinct
    rw [update_self, perm.mem_iff, mem_cons]
    constructor
    · intro member
      exact ⟨ne_of_mem_of_not_mem member distinct.1, Or.inr member⟩
    · rintro ⟨different, same | member⟩
      · exact absurd same different
      · exact member
  · rw [update_of_ne same]
    constructor
    · intro member
      refine ⟨?_, member⟩
      rintro rfl
      exact same (indexed.place_eq holds member).symm
    · exact And.right

/-- An element leaves, and its key with it. -/
theorem Indexed.leave (indexed : Indexed key place held index listed) (holds : held handle = some element)
    (known : index (key element) = some handle) {fewer : List A} (perm : listed (place element) ~ handle :: fewer) :
    Indexed key place (update held handle none) (update index (key element) none) (update listed (place element) fewer) where
  found name reached remains := by
    by_cases same : name = key element
    · subst same
      rw [update_self] at remains
      cases remains
    · rw [update_of_ne same] at remains
      obtain ⟨found, holding, named, member⟩ := indexed.found name reached remains
      have apart : reached ≠ handle := by
        rintro rfl
        exact same (indexed.key_eq holds remains).symm
      exact ⟨found, by rwa [update_of_ne apart], named, (indexed.mem_left holds perm).mpr ⟨apart, member⟩⟩
  mapped spot reached member := by
    obtain ⟨apart, member⟩ := (indexed.mem_left holds perm).mp member
    obtain ⟨found, holding, placed, remains⟩ := indexed.mapped spot reached member
    have different : key found ≠ key element := by
      intro same
      exact apart (Option.some.inj ((same ▸ remains).symm.trans known))
    exact ⟨found, by rwa [update_of_ne apart], placed, by rwa [update_of_ne different]⟩
  once spot := by
    by_cases same : spot = place element
    · subst same
      rw [update_self]
      have distinct := indexed.once (place element)
      rw [perm.nodup_iff] at distinct
      exact (nodup_cons.mp distinct).2
    · rw [update_of_ne same]
      exact indexed.once spot

/-! ### Handles that are given out in order -/

section Unused

variable {memory : Nat → Option E} {unused address : Nat}

theorem unused_arrive (free : ∀ handle, unused ≤ handle → memory handle = none) (element : E) :
    ∀ handle, unused + 1 ≤ handle → update memory unused (some element) handle = none := by
  intro handle behind
  have apart : handle ≠ unused := Nat.ne_of_gt behind
  rw [update_of_ne apart]
  exact free handle (Nat.le_of_lt behind)

theorem unused_leave (free : ∀ handle, unused ≤ handle → memory handle = none) (address : Nat) :
    ∀ handle, unused ≤ handle → update memory address none handle = none := by
  intro handle behind
  by_cases same : handle = address
  · subst same
    exact update_self _ _ _
  · rw [update_of_ne same]
    exact free handle behind

theorem unused_change (free : ∀ handle, unused ≤ handle → memory handle = none) (holds : memory address = some element) (other : E) :
    ∀ handle, unused ≤ handle → update memory address (some other) handle = none := by
  intro handle behind
  have apart : handle ≠ address := by
    rintro rfl
    cases holds.symm.trans (free handle behind)
  rw [update_of_ne apart]
  exact free handle behind

end Unused

end FinanceTech.Library.Index
