import FinanceTech.Library.Splitting
import Mathlib.Algebra.Ring.Nat

/-! Strings of the standard library as the bytes they hold. A position outside
the string is an access that fails; the one just past the end holds the null
character and may be read, not written. -/

namespace FinanceTech.Strings

abbrev Text := List UInt8

/-- `max_size`: below this every length fits the size type with room to spare. -/
def maxSize : Nat := 2 ^ 63 - 1

/-- A position that is no position, the value the size type wraps to below zero. -/
def npos : Nat := 2 ^ 64 - 1

/-- The `operator[]` of a string. -/
def readAt (str : Text) (position : Nat) : Option UInt8 :=
  if position = str.length then some 0 else str[position]?

def writeAt (str : Text) (position : Nat) (symbol : UInt8) : Option Text :=
  if position < str.length then some (str.set position symbol) else none

/-- A position behind the end throws; a count that reaches too far is cut. -/
def substr (str : Text) (position count : Nat) : Option Text :=
  if position ≤ str.length then some ((str.drop position).take count) else none

def erase (str : Text) (position count : Nat) : Option Text :=
  if position ≤ str.length then some (str.take position ++ str.drop (position + count)) else none

def findFirstNotOf (str : Text) (symbol : UInt8) : Nat :=
  match str.findIdx? (· != symbol) with
  | .some position => position
  | .none => npos

/-- Where the pattern stands first from a position on. -/
def find (str pattern : Text) (position : Nat) : Nat :=
  if position ≤ str.length then
    match Library.Splitting.occurrence pattern (str.drop position) with
    | .some offset => position + offset
    | .none => npos
  else npos

def findFirstOf (str symbols : Text) (position : Nat) : Nat :=
  match (str.drop position).findIdx? (fun symbol => symbols.contains symbol) with
  | .some offset => position + offset
  | .none => npos

/-- The characters a pointer into the string and a length give; both ends have to stay inside. -/
def view (str : Text) (start length : Nat) : Option Text :=
  if start + length ≤ str.length then some ((str.drop start).take length) else none

/-- New characters are null. -/
def resize (str : Text) (count : Nat) : Text :=
  str.take count ++ List.replicate (count - str.length) 0

/-- Bytes copied to a position; they may not reach beyond the end. -/
def copyTo {α : Type} (dest : List α) (position : Nat) (bytes : List α) : Option (List α) :=
  if position + bytes.length ≤ dest.length then some (dest.take position ++ bytes ++ dest.drop (position + bytes.length)) else none

theorem readAt_inside {str : Text} {position : Nat} (inside : position < str.length) :
    readAt str position = some str[position] := by
  unfold readAt
  rw [if_neg (by omega)]
  exact List.getElem?_eq_getElem inside

theorem readAt_outside {str : Text} {position : Nat} (outside : str.length < position) :
    readAt str position = none := by
  unfold readAt
  rw [if_neg (by omega)]
  exact List.getElem?_eq_none (by omega)

theorem writeAt_append (before after : Text) (old symbol : UInt8) :
    writeAt (before ++ old :: after) before.length symbol = some (before ++ symbol :: after) := by
  simp [writeAt]

theorem substr_append (before after : Text) (count : Nat) :
    substr (before ++ after) before.length count = some (after.take count) := by
  simp [substr]

end FinanceTech.Strings
