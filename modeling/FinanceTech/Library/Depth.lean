import FinanceTech.Library.SortedMap
import Mathlib.Logic.Function.Basic
import Mathlib.Algebra.Notation.Defs

/-! The depth of a market as a feed of level updates describes it: a partial map
from places in the book to what rests there. Writing zero clears a place. -/

namespace FinanceTech.Library

universe u v

/-- What rests at each place. -/
abbrev Depth (K : Type u) (V : Type v) := K → Option V

namespace Depth

variable {K : Type u} {V : Type v} [DecidableEq K] [DecidableEq V] [Zero V]

def write (depth : Depth K V) (key : K) (value : V) : Depth K V :=
  Function.update depth key (if value = 0 then none else some value)

/-- The depth after a sequence of writes. -/
def folded (depth : Depth K V) (writes : List (K × V)) : Depth K V :=
  writes.foldl (fun depth write => depth.write write.1 write.2) depth

@[simp] theorem write_self (depth : Depth K V) (key : K) (value : V) :
    depth.write key value key = if value = 0 then none else some value := Function.update_self _ _ _

@[simp] theorem write_ne (depth : Depth K V) {key other : K} (different : other ≠ key) (value : V) :
    depth.write key value other = depth other := Function.update_of_ne different _ _

@[simp] theorem folded_nil (depth : Depth K V) : depth.folded [] = depth := rfl

@[simp] theorem folded_append (depth : Depth K V) (first second : List (K × V)) :
    depth.folded (first ++ second) = (depth.folded first).folded second := List.foldl_append

@[simp] theorem folded_cons (depth : Depth K V) (write : K × V) (rest : List (K × V)) :
    depth.folded (write :: rest) = (depth.write write.1 write.2).folded rest := rfl

/-- What a written value leaves at its place. -/
def settled (value : V) : Option V := if value = 0 then none else some value

omit [DecidableEq V] [Zero V] in
/-- The value that a sequence of writes puts at a place last. -/
def lastWrite (key : K) : List (K × V) → Option V
  | [] => none
  | write :: rest => (lastWrite key rest).or (if write.1 = key then some write.2 else none)

omit [DecidableEq V] [Zero V] in
theorem lastWrite_append (key : K) (first second : List (K × V)) :
    lastWrite key (first ++ second) = (lastWrite key second).or (lastWrite key first) := by
  induction first with
  | nil => simp [lastWrite]
  | cons write rest ih => simp [lastWrite, ih, Option.or_assoc]

omit [DecidableEq V] [Zero V] in
theorem lastWrite_fresh {key : K} {writes : List (K × V)} (fresh : key ∉ writes.map Prod.fst) : lastWrite key writes = none := by
  induction writes with
  | nil => rfl
  | cons first rest ih =>
    rw [List.map_cons, List.mem_cons, not_or] at fresh
    rw [lastWrite, ih fresh.2, if_neg (Ne.symm fresh.1)]
    rfl

/-- A place holds what was written to it last, or what it held before. -/
theorem folded_apply (depth : Depth K V) (writes : List (K × V)) (key : K) :
    depth.folded writes key = (lastWrite key writes).elim (depth key) settled := by
  induction writes generalizing depth with
  | nil => rfl
  | cons first rest ih =>
    rw [folded_cons, ih, lastWrite]
    cases lastWrite key rest with
    | some value => rfl
    | none =>
      by_cases same : first.1 = key
      · cases same
        simp [settled]
      · simp [same, Ne.symm same]

/-- Earlier writes make no difference exactly when later ones cover them or the
places they end at were so before. -/
theorem folded_append_eq_iff (depth : Depth K V) (old new : List (K × V)) :
    depth.folded (old ++ new) = depth.folded new ↔
      ∀ key value, lastWrite key old = some value → lastWrite key new = none → depth key = settled value := by
  constructor
  · intro same key value written free
    have place := congrFun same key
    rw [folded_apply, folded_apply, lastWrite_append, free, written] at place
    exact place.symm
  · intro settles
    funext key
    rw [folded_apply, folded_apply, lastWrite_append]
    cases free : lastWrite key new with
    | some value => rfl
    | none =>
      cases written : lastWrite key old with
      | none => rfl
      | some value => exact (settles key value written free).symm

omit [DecidableEq V] [Zero V] in
/-- The depth that a list of levels spells out. -/
def listed (levels : List (K × V)) : Depth K V :=
  levels.foldl (fun depth level => Function.update depth level.1 (some level.2)) fun _ => none

end Depth

namespace SortedMap.Map

variable {K : Type u} {V : Type v} {before : K → K → Prop} [DecidableEq K] [IsStrictTotalOrder K before] [DecidableRel before]
  [DecidableEq V] [Zero V]

/-- The write of a depth, on a sorted map. -/
def write (map : Map K V before) (key : K) (value : V) : Map K V before :=
  if value = 0 then map.erase key else map.insertOrAssign key value

theorem find?_write (map : Map K V before) (key : K) (value : V) :
    (map.write key value).find? = Depth.write map.find? key value := by
  funext other
  unfold write Depth.write
  by_cases zero : value = 0
  · simp [zero, Function.update_apply]
  · simp [zero, Function.update_apply]

end SortedMap.Map
end FinanceTech.Library
