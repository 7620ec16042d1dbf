import FinanceTech.Library.Runs
import FinanceTech.Proofs.PnlAccounting
import Mathlib.Algebra.BigOperators.Group.List.Basic

/-! A position after any trades. Its quantity is their signed sum, a flat one has
no average price, and the average of an open one lies between the prices it was
entered at since it was last opened or turned around. -/

namespace FinanceTech.Proofs.PositionHistory
open Library Trading PnlAccounting

/-- What one call of `applyTrade` is given. -/
structure Execution where
  side : Side
  price : Price
  quantity : Quantity
deriving DecidableEq, Repr

def Execution.signed (execution : Execution) : Int := signedInt execution.side execution.quantity

def execute (position : Position) (execution : Execution) : Position :=
  position.applyTrade execution.side execution.price execution.quantity

def tradesOf (executions : List Execution) : Holding.Trades :=
  executions.map fun execution => (execution.signed, execution.price.raw.toInt)

/-- The prices of the trades that increased the position since it was last
opened or turned around, the trade that did so included. -/
def entryPrices (executions : List Execution) : List Int := Holding.entries 0 [] (tradesOf executions)

/-- No value that a position of this quantity computes for these trades leaves
64 bits. -/
def AllRepresentable (total : Int) (executions : List Execution) : Prop :=
  Runs.AtEveryStep (fun total execution => total + execution.signed)
    (fun total execution => Representable total execution.signed) total executions

/-- What is known of a position after these trades. -/
structure Recorded (executions : List Execution) (position : Position) : Prop where
  quantity : position.currentQuantity.toInt = (executions.map Execution.signed).sum
  flat : position.currentQuantity = 0 → position.averageEntryPrice = 0
  between : position.currentQuantity ≠ 0 → Holding.Between position.averageEntryPrice.raw.toInt (entryPrices executions)

theorem executions_holding {position : Position} {executions : List Execution}
    (range : AllRepresentable position.currentQuantity.toInt executions) :
    holdingOf (executions.foldl execute position) = (holdingOf position).after (tradesOf executions) := by
  induction executions generalizing position with
  | nil => rfl
  | cons execution rest ih =>
    obtain ⟨now, later⟩ := range
    have moved := applyTrade_holding execution.price now
    have total := congrArg Holding.quantity moved
    rw [Holding.trade_quantity] at total
    change (execute position execution).currentQuantity.toInt = position.currentQuantity.toInt + execution.signed at total
    have others : AllRepresentable (execute position execution).currentQuantity.toInt rest := total ▸ later
    exact (ih others).trans (congrArg (Holding.after · (tradesOf rest)) moved)

private theorem sum_trades (executions : List Execution) :
    ((tradesOf executions).map Prod.fst).sum = (executions.map Execution.signed).sum := by
  rw [tradesOf, List.map_map]
  rfl

private theorem executions_recorded {position : Position} (flat : position.currentQuantity = 0) (unpriced : position.averageEntryPrice = 0)
    {executions : List Execution} (range : AllRepresentable 0 executions) :
    Recorded executions (executions.foldl execute position) := by
  have start : holdingOf position = ⟨0, 0⟩ := by
    rw [holdingOf, flat, unpriced]
    rfl
  have zero : position.currentQuantity.toInt = 0 := congrArg Holding.quantity start
  have final := executions_holding (zero.symm ▸ range)
  have total := Holding.after_quantity (holdingOf position) (tradesOf executions)
  have initial : Holding.Priced ⟨0, 0⟩ [] := ⟨fun _ => rfl, fun opened => absurd rfl opened⟩
  have priced : Holding.Priced (holdingOf (executions.foldl execute position)) (entryPrices executions) := by
    rw [final, start]
    exact initial.after (tradesOf executions)
  rw [← final, start, sum_trades, zero_add] at total
  refine ⟨total, fun empty => ?_, fun opened => priced.opened fun empty => opened ((eq_zero_iff _).mpr empty)⟩
  have average := priced.flat ((eq_zero_iff _).mp empty)
  exact (ScaledValue.isZero_iff _).mp (decide_eq_true ((eq_zero_iff _).mpr average))

/-- Whatever the trades, the quantity is their sum, in any order of them; a flat
position has no average price; and that of an open one is between its entry
prices. -/
theorem position_recorded {position : Position} (flat : position.currentQuantity = 0) (unpriced : position.averageEntryPrice = 0)
    {executions : List Execution} (range : AllRepresentable 0 executions) :
    Recorded executions (executions.foldl execute position) ∧
      ∀ reordered, reordered.Perm executions → AllRepresentable 0 reordered →
        (reordered.foldl execute position).currentQuantity = (executions.foldl execute position).currentQuantity := by
  have recorded := executions_recorded flat unpriced range
  refine ⟨recorded, fun reordered perm other => ?_⟩
  apply Int64.toInt_inj.mp
  rw [(executions_recorded flat unpriced other).quantity, recorded.quantity]
  exact (perm.map _).sum_eq

instance (quantity signed : Int) : Decidable (Representable quantity signed) :=
  decidable_of_iff (_ ∧ _ ∧ (_ → _ → _ ∧ _ ∧ (_ → _))) ⟨fun ⟨change, total, sizes⟩ => ⟨change, total, sizes⟩,
    fun range => ⟨range.change, range.total, range.sizes⟩⟩

/-- A negative quantity, a zero one, an increase, a part close and a reversal. -/
theorem position_recorded_reversal :
    let executions : List Execution := [⟨.sell, ⟨101⟩, ⟨-3⟩⟩, ⟨.buy, ⟨90⟩, ⟨0⟩⟩, ⟨.buy, ⟨104⟩, ⟨2⟩⟩, ⟨.sell, ⟨50⟩, ⟨1⟩⟩,
      ⟨.buy, ⟨99⟩, ⟨-9⟩⟩, ⟨.sell, ⟨97⟩, ⟨2⟩⟩]
    Recorded executions (executions.foldl execute {}) ∧ ∀ reordered, reordered.Perm executions → AllRepresentable 0 reordered →
      (reordered.foldl execute {}).currentQuantity = (executions.foldl execute {}).currentQuantity := by
  intro executions
  have range : AllRepresentable 0 executions := by
    unfold AllRepresentable
    decide
  exact position_recorded rfl rfl range

end FinanceTech.Proofs.PositionHistory
