import FinanceTech.Application
import FinanceTech.Library.WideInteger
import Mathlib.Algebra.Order.Field.Basic
import Mathlib.Algebra.Order.Ring.Rat
import Mathlib.Tactic.Linarith

/-! The strategy compares a ratio with its threshold by multiplying across. For
quantities that are not negative this is the exact test, nothing overflows, and
the laws of the ratio carry over to the signals. -/

namespace FinanceTech.Proofs.ImbalanceSignals
open Library Trading

def bidQuantity (event : MarketEvent) : Int := event.bestBidQuantity.raw.toInt

def askQuantity (event : MarketEvent) : Int := event.bestAskQuantity.raw.toInt

structure NonNegative (event : MarketEvent) : Prop where
  bid : 0 ≤ bidQuantity event
  ask : 0 ≤ askQuantity event

/-- A threshold that is a fraction and not negative. -/
structure Sensible (strategy : ImbalanceStrategy) : Prop where
  numerator : 0 ≤ strategy.thresholdNumerator.toInt
  denominator : 0 < strategy.thresholdDenominator.toInt

def threshold (strategy : ImbalanceStrategy) : ℚ := strategy.thresholdNumerator.toInt / strategy.thresholdDenominator.toInt

def excess (first second : Int) : ℚ := ((first - second : Int) : ℚ) / ((first + second : Int) : ℚ)

/-- One side is larger by at least the threshold. -/
def Outweighs (strategy : ImbalanceStrategy) (first second : Int) : Prop :=
  second < first ∧ threshold strategy ≤ excess first second

instance (strategy : ImbalanceStrategy) (first second : Int) : Decidable (Outweighs strategy first second) :=
  inferInstanceAs (Decidable (_ ∧ _))

def exactSignal (strategy : ImbalanceStrategy) (event : MarketEvent) : Signal :=
  if Outweighs strategy (bidQuantity event) (askQuantity event) then .buy
  else if Outweighs strategy (askQuantity event) (bidQuantity event) then .sell
  else .none

/-- The values that the strategy computes in 128 bits. -/
def wideValues (strategy : ImbalanceStrategy) (event : MarketEvent) : List Int :=
  let totalQuantity := bidQuantity event + askQuantity event
  let difference := bidQuantity event - askQuantity event
  [bidQuantity event, askQuantity event, totalQuantity, difference, -difference,
    difference * strategy.thresholdDenominator.toInt, -difference * strategy.thresholdDenominator.toInt,
    totalQuantity * strategy.thresholdNumerator.toInt]

def mirrored : Signal → Signal
  | .buy => .sell
  | .sell => .buy
  | .none => .none

/-- The bids and the asks of an event change places. -/
def swapped (event : MarketEvent) : MarketEvent :=
  { event with bestBidQuantity := event.bestAskQuantity, bestAskQuantity := event.bestBidQuantity }

/-- How far a signal is toward buying. -/
def direction : Signal → Int
  | .sell => -1
  | .none => 0
  | .buy => 1

variable {strategy : ImbalanceStrategy}

theorem wideValues_fit (strategy : ImbalanceStrategy) {event : MarketEvent} (nonneg : NonNegative event) :
    ∀ value ∈ wideValues strategy event, FitsWide value := by
  obtain ⟨-, highBid⟩ := fits_toInt event.bestBidQuantity.raw
  obtain ⟨-, highAsk⟩ := fits_toInt event.bestAskQuantity.raw
  have bid : 0 ≤ bidQuantity event ∧ bidQuantity event < 2 ^ 63 := ⟨nonneg.bid, highBid⟩
  have ask : 0 ≤ askQuantity event ∧ askQuantity event < 2 ^ 63 := ⟨nonneg.ask, highAsk⟩
  have total : |bidQuantity event + askQuantity event| < 2 ^ 64 := by
    rw [abs_lt]
    omega
  have difference : |bidQuantity event - askQuantity event| < 2 ^ 64 := by
    rw [abs_lt]
    omega
  have opposite : |-(bidQuantity event - askQuantity event)| < 2 ^ 64 := by rwa [abs_neg]
  have numerator := (fits_toInt strategy.thresholdNumerator).abs_bound
  have denominator := (fits_toInt strategy.thresholdDenominator).abs_bound
  have small : ∀ {value : Int}, |value| < 2 ^ 64 → FitsWide value := fun bound => fitsWide_of_abs (bound.trans (by decide))
  simp only [wideValues, List.forall_mem_cons]
  refine ⟨small ?_, small ?_, small total, small difference, small opposite, fitsWide_mul difference denominator,
    fitsWide_mul opposite denominator, fitsWide_mul total numerator, fun _ member => absurd member List.not_mem_nil⟩
  · rw [abs_lt]
    omega
  · rw [abs_lt]
    omega

private theorem outweighs_iff (sensible : Sensible strategy) {first second : Int} (left : 0 ≤ first) (right : 0 ≤ second) :
    Outweighs strategy first second ↔ 0 < first - second ∧
      (first + second) * strategy.thresholdNumerator.toInt ≤ (first - second) * strategy.thresholdDenominator.toInt := by
  rw [Outweighs, sub_pos]
  apply and_congr_right
  intro larger
  have total : (0 : ℚ) < ((first + second : Int) : ℚ) := by exact_mod_cast (by omega : 0 < first + second)
  have scale : (0 : ℚ) < (strategy.thresholdDenominator.toInt : ℚ) := by exact_mod_cast sensible.denominator
  rw [threshold, excess, div_le_div_iff₀ scale total, mul_comm ((strategy.thresholdNumerator.toInt : Int) : ℚ)]
  exact_mod_cast Iff.rfl

private theorem evaluate_eq (strategy : ImbalanceStrategy) (event : MarketEvent) : strategy.evaluate event =
    if bidQuantity event + askQuantity event ≤ 0 then .none
    else if 0 < bidQuantity event - askQuantity event then
      if (bidQuantity event + askQuantity event) * strategy.thresholdNumerator.toInt ≤
        (bidQuantity event - askQuantity event) * strategy.thresholdDenominator.toInt then .buy else .none
    else if bidQuantity event - askQuantity event < 0 then
      if (bidQuantity event + askQuantity event) * strategy.thresholdNumerator.toInt ≤
        -(bidQuantity event - askQuantity event) * strategy.thresholdDenominator.toInt then .sell else .none
    else .none := rfl

theorem evaluate_exact (sensible : Sensible strategy) {event : MarketEvent} (nonneg : NonNegative event) :
    strategy.evaluate event = exactSignal strategy event := by
  have bid := nonneg.bid
  have ask := nonneg.ask
  have total : askQuantity event + bidQuantity event = bidQuantity event + askQuantity event := add_comm _ _
  have opposite : askQuantity event - bidQuantity event = -(bidQuantity event - askQuantity event) := (neg_sub _ _).symm
  rw [exactSignal, evaluate_eq]
  simp only [outweighs_iff sensible bid ask, outweighs_iff sensible ask bid, total, opposite, neg_pos]
  rcases lt_trichotomy (bidQuantity event - askQuantity event) 0 with sells | even | buys
  · have some : ¬ bidQuantity event + askQuantity event ≤ 0 := by omega
    simp only [some, sells, not_lt_of_gt sells, false_and, true_and, if_true, if_false]
  · simp only [even, lt_irrefl, false_and, if_false, ite_self]
  · have some : ¬ bidQuantity event + askQuantity event ≤ 0 := by omega
    simp only [some, buys, not_lt_of_gt buys, false_and, true_and, if_true, if_false]

theorem not_both {first second : Int} (larger : Outweighs strategy first second) : ¬ Outweighs strategy second first :=
  fun other => lt_asymm larger.1 other.1

private theorem exactSignal_iff (strategy : ImbalanceStrategy) (event : MarketEvent) :
    (exactSignal strategy event = .buy ↔ Outweighs strategy (bidQuantity event) (askQuantity event)) ∧
    (exactSignal strategy event = .sell ↔ Outweighs strategy (askQuantity event) (bidQuantity event)) ∧
    (exactSignal strategy event = .none ↔ ¬ Outweighs strategy (bidQuantity event) (askQuantity event) ∧
      ¬ Outweighs strategy (askQuantity event) (bidQuantity event)) := by
  rw [exactSignal]
  by_cases buys : Outweighs strategy (bidQuantity event) (askQuantity event)
  · simp [buys, not_both buys]
  · by_cases sells : Outweighs strategy (askQuantity event) (bidQuantity event)
    · simp [buys, sells]
    · simp [buys, sells]

private theorem exactSignal_swapped (strategy : ImbalanceStrategy) (event : MarketEvent) :
    exactSignal strategy (swapped event) = mirrored (exactSignal strategy event) := by
  rw [exactSignal, exactSignal]
  change (if Outweighs strategy (askQuantity event) (bidQuantity event) then _ else
    if Outweighs strategy (bidQuantity event) (askQuantity event) then _ else _) = _
  by_cases buys : Outweighs strategy (bidQuantity event) (askQuantity event)
  · rw [if_neg (not_both buys), if_pos buys, if_pos buys]
    rfl
  · by_cases sells : Outweighs strategy (askQuantity event) (bidQuantity event)
    · rw [if_pos sells, if_neg buys, if_pos sells]
      rfl
    · rw [if_neg sells, if_neg buys, if_neg buys, if_neg sells]
      rfl

private theorem excess_scaled {factor : Int} (positive : 0 < factor) (first second : Int) :
    excess (factor * first) (factor * second) = excess first second := by
  have nonzero : (factor : ℚ) ≠ 0 := by exact_mod_cast positive.ne'
  rw [excess, excess, ← mul_sub, ← mul_add, Int.cast_mul, Int.cast_mul, mul_div_mul_left _ _ nonzero]

private theorem outweighs_scaled {factor : Int} (positive : 0 < factor) (first second : Int) :
    Outweighs strategy (factor * first) (factor * second) ↔ Outweighs strategy first second := by
  rw [Outweighs, Outweighs, excess_scaled positive, mul_lt_mul_iff_right₀ positive]

private theorem exactSignal_scaled (strategy : ImbalanceStrategy) {factor : Int} (positive : 0 < factor) {event scaled : MarketEvent}
    (bid : bidQuantity scaled = factor * bidQuantity event) (ask : askQuantity scaled = factor * askQuantity event) :
    exactSignal strategy scaled = exactSignal strategy event := by
  rw [exactSignal, exactSignal]
  simp only [bid, ask, outweighs_scaled positive]

theorem excess_mono {first larger second smaller : Int} (more : first ≤ larger) (less : smaller ≤ second) (left : 0 ≤ first)
    (right : 0 ≤ smaller) (total : 0 < first + second) (other : 0 < larger + smaller) :
    excess first second ≤ excess larger smaller := by
  have before : (0 : ℚ) < ((first + second : Int) : ℚ) := by exact_mod_cast total
  have after : (0 : ℚ) < ((larger + smaller : Int) : ℚ) := by exact_mod_cast other
  have cross : first * smaller ≤ larger * second := mul_le_mul more less right (left.trans more)
  rw [excess, excess, div_le_div_iff₀ before after]
  exact_mod_cast (by linarith : (first - second) * (larger + smaller) ≤ (larger - smaller) * (first + second))

private theorem exactSignal_mono (strategy : ImbalanceStrategy) {event raised : MarketEvent} (nonneg : NonNegative event)
    (more : bidQuantity event ≤ bidQuantity raised) (same : askQuantity raised = askQuantity event) :
    direction (exactSignal strategy event) ≤ direction (exactSignal strategy raised) := by
  have bid := nonneg.bid
  have ask := nonneg.ask
  have keeps : Outweighs strategy (bidQuantity event) (askQuantity event) →
      Outweighs strategy (bidQuantity raised) (askQuantity raised) := by
    rintro ⟨larger, reaches⟩
    rw [same]
    exact ⟨larger.trans_le more, reaches.trans (excess_mono more le_rfl bid ask (by omega) (by omega))⟩
  have earlier : Outweighs strategy (askQuantity raised) (bidQuantity raised) →
      Outweighs strategy (askQuantity event) (bidQuantity event) := by
    rintro ⟨larger, reaches⟩
    rw [same] at larger reaches
    exact ⟨more.trans_lt larger, reaches.trans (excess_mono le_rfl more ask bid (by omega) (by omega))⟩
  rw [exactSignal, exactSignal]
  by_cases buys : Outweighs strategy (bidQuantity event) (askQuantity event)
  · rw [if_pos buys, if_pos (keeps buys)]
  · by_cases sells : Outweighs strategy (askQuantity raised) (bidQuantity raised)
    · rw [if_neg buys, if_pos (earlier sells), if_neg (not_both sells), if_pos sells]
    · rw [if_neg buys, if_neg sells]
      split <;> split <;> decide

/-- Whatever the quantities and the threshold, the strategy takes the exact test
without overflow; swapped sides mirror its signal, a common factor changes
nothing, and a larger bid never moves it toward selling. -/
theorem evaluate_decides (sensible : Sensible strategy) {event : MarketEvent} (nonneg : NonNegative event) :
    (strategy.evaluate event = .buy ↔ Outweighs strategy (bidQuantity event) (askQuantity event)) ∧
    (strategy.evaluate event = .sell ↔ Outweighs strategy (askQuantity event) (bidQuantity event)) ∧
    (strategy.evaluate event = .none ↔ ¬ Outweighs strategy (bidQuantity event) (askQuantity event) ∧
      ¬ Outweighs strategy (askQuantity event) (bidQuantity event)) ∧
    (∀ value ∈ wideValues strategy event, FitsWide value) ∧
    strategy.evaluate (swapped event) = mirrored (strategy.evaluate event) ∧
    (∀ factor scaled, 0 < factor → bidQuantity scaled = factor * bidQuantity event →
      askQuantity scaled = factor * askQuantity event → strategy.evaluate scaled = strategy.evaluate event) ∧
    ∀ raised, bidQuantity event ≤ bidQuantity raised → askQuantity raised = askQuantity event →
      direction (strategy.evaluate event) ≤ direction (strategy.evaluate raised) := by
  have bid := nonneg.bid
  have ask := nonneg.ask
  rw [evaluate_exact sensible nonneg]
  obtain ⟨buy, sell, none⟩ := exactSignal_iff strategy event
  refine ⟨buy, sell, none, wideValues_fit strategy nonneg, ?_, ?_, ?_⟩
  · have turned : NonNegative (swapped event) := ⟨ask, bid⟩
    rw [evaluate_exact sensible turned]
    exact exactSignal_swapped strategy event
  · intro factor scaled positive bids asks
    have scaledNonneg : NonNegative scaled :=
      ⟨bids ▸ mul_nonneg positive.le bid, asks ▸ mul_nonneg positive.le ask⟩
    rw [evaluate_exact sensible scaledNonneg]
    exact exactSignal_scaled strategy positive bids asks
  · intro raised more same
    rw [evaluate_exact sensible ⟨bid.trans more, same ▸ ask⟩]
    exact exactSignal_mono strategy nonneg more same

/-- The default threshold is reached by eighty-five against fifteen. -/
theorem evaluate_decides_reached :
    let strategy : ImbalanceStrategy := {}
    let event : MarketEvent := { bestBidQuantity := ⟨85⟩, bestAskQuantity := ⟨15⟩ }
    (strategy.evaluate event = .buy ↔ Outweighs strategy (bidQuantity event) (askQuantity event)) ∧
    (strategy.evaluate event = .sell ↔ Outweighs strategy (askQuantity event) (bidQuantity event)) ∧
    (strategy.evaluate event = .none ↔ ¬ Outweighs strategy (bidQuantity event) (askQuantity event) ∧
      ¬ Outweighs strategy (askQuantity event) (bidQuantity event)) ∧
    (∀ value ∈ wideValues strategy event, FitsWide value) ∧
    strategy.evaluate (swapped event) = mirrored (strategy.evaluate event) ∧
    (∀ factor scaled, 0 < factor → bidQuantity scaled = factor * bidQuantity event →
      askQuantity scaled = factor * askQuantity event → strategy.evaluate scaled = strategy.evaluate event) ∧
    ∀ raised, bidQuantity event ≤ bidQuantity raised → askQuantity raised = askQuantity event →
      direction (strategy.evaluate event) ≤ direction (strategy.evaluate raised) :=
  evaluate_decides ⟨by decide, by decide⟩ ⟨by decide, by decide⟩

end FinanceTech.Proofs.ImbalanceSignals
