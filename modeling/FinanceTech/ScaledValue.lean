import FinanceTech.Library.MachineInteger
import Mathlib.Algebra.Notation.Defs

/-! The numeric and identifier types of the trading core. `ScaledValue` takes
the type it is the base of as a parameter, so that prices and quantities share
their operations and stay apart. -/

namespace FinanceTech.Trading
open Library

abbrev InstrumentId := UInt32
abbrev OrderId := UInt64
abbrev ExchangeOrderId := UInt64
abbrev SequenceNumber := UInt64

/-- Nanoseconds of a clock. -/
abbrev Timestamp := UInt64

inductive Side where
  | buy | sell
deriving DecidableEq, Repr

inductive OrderType where
  | market | limit
deriving DecidableEq, Repr

inductive OrderStatus where
  | new | partiallyFilled | filled | cancelled | rejected
deriving DecidableEq, Repr

inductive ExecType where
  | new | trade | cancel | reject
deriving DecidableEq, Repr

inductive Derived where
  | price | quantity

/-- A fixed-point value. Arithmetic on the raw value wraps where the overflow
of the source's `int64_t` is undefined. -/
structure ScaledValue (derived : Derived) where
  raw : Int64 := 0
deriving DecidableEq, Repr

namespace ScaledValue

variable {derived : Derived}

def pow10 : Nat → Int64
  | 0 => 1
  | exponent + 1 => pow10 exponent * 10

def DecimalPlaces : Nat := 8

def Scale : Int64 := pow10 DecimalPlaces

instance : Zero (ScaledValue derived) := ⟨⟨0⟩⟩

def isZero (value : ScaledValue derived) : Bool := value.raw = 0

def isPositive (value : ScaledValue derived) : Bool := value.raw > 0

instance : Add (ScaledValue derived) := ⟨fun first second => ⟨first.raw + second.raw⟩⟩

instance : Sub (ScaledValue derived) := ⟨fun first second => ⟨first.raw - second.raw⟩⟩

instance : LT (ScaledValue derived) := ⟨fun first second => first.raw < second.raw⟩

instance (first second : ScaledValue derived) : Decidable (first < second) :=
  inferInstanceAs (Decidable (first.raw < second.raw))

@[simp] theorem isZero_iff (value : ScaledValue derived) : value.isZero = true ↔ value = 0 := by
  cases value
  simp only [isZero, decide_eq_true_eq]
  exact ⟨congrArg mk, congrArg raw⟩

@[simp] theorem raw_zero : (0 : ScaledValue derived).raw = 0 := rfl

instance : IsStrictTotalOrder (ScaledValue derived) (· < ·) where
  trichotomous first second left right := by
    cases first
    cases second
    exact congrArg mk (Std.Trichotomous.trichotomous (r := (· < · : Int64 → Int64 → Prop)) _ _ left right)
  irrefl value := Int64.lt_irrefl
  trans _ _ _ := Int64.lt_trans

end ScaledValue

abbrev Price := ScaledValue .price

abbrev Quantity := ScaledValue .quantity

end FinanceTech.Trading
