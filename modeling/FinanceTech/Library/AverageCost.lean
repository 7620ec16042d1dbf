import Mathlib.Algebra.Order.Ring.Abs
import Mathlib.Algebra.Order.Ring.Int
import Mathlib.Tactic.Linarith
import Mathlib.Tactic.Ring

/-! Average-cost accounting over the integers. A holding is a signed quantity and
the truncated average price it was entered at; closing part of it realizes a
gain in units of a scale. Gains, cash and book cost agree up to the rounding of
the two divisions, and the rounding of each trade is bounded here. However the
averages round, they stay between the prices they are made of. -/

namespace FinanceTech.Library

structure Holding where
  quantity : Int := 0
  average : Int := 0
deriving DecidableEq, Repr

namespace Holding

/-- Trade a signed quantity at a price. -/
def trade (holding : Holding) (signed price : Int) : Holding :=
  if signed = 0 then holding
  else if holding.quantity = 0 then ⟨signed, price⟩
  else if 0 < holding.quantity ↔ 0 < signed then
    ⟨holding.quantity + signed,
      (holding.average * |holding.quantity| + price * |signed|).tdiv (|holding.quantity| + |signed|)⟩
  else if |signed| < |holding.quantity| then ⟨holding.quantity + signed, holding.average⟩
  else if |signed| = |holding.quantity| then ⟨0, 0⟩
  else ⟨holding.quantity + signed, price⟩

/-- Whether a trade closes some of the holding. -/
def Closes (holding : Holding) (signed : Int) : Prop :=
  0 < holding.quantity ∧ signed < 0 ∨ holding.quantity < 0 ∧ 0 < signed

/-- Whether a trade adds to a holding that is open. -/
def Increases (holding : Holding) (signed : Int) : Prop :=
  0 < holding.quantity ∧ 0 < signed ∨ holding.quantity < 0 ∧ signed < 0

instance (holding : Holding) (signed : Int) : Decidable (holding.Closes signed) := inferInstanceAs (Decidable (_ ∨ _))

instance (holding : Holding) (signed : Int) : Decidable (holding.Increases signed) := inferInstanceAs (Decidable (_ ∨ _))

/-- The gain of the quantity a trade closes, truncated to the scale. -/
def gain (scale : Int) (holding : Holding) (signed price : Int) : Int :=
  if holding.Closes signed then
    ((if 0 < holding.quantity then price - holding.average else holding.average - price) *
      min |holding.quantity| |signed|).tdiv scale
  else 0

def cost (holding : Holding) : Int := holding.quantity * holding.average

/-- What the divisions of one trade can lose. -/
def rounding (scale : Int) (holding : Holding) (signed : Int) : Int :=
  if holding.Closes signed then scale - 1
  else if holding.Increases signed then |holding.quantity + signed| - 1
  else 0

theorem tdiv_error (value : Int) {divisor : Int} (positive : 0 < divisor) :
    |value - divisor * value.tdiv divisor| ≤ divisor - 1 := by
  have whole := Int.mul_tdiv_add_tmod value divisor
  have below := Int.tmod_lt_of_pos value positive
  have above := Int.lt_tmod_of_pos value positive
  rw [abs_le]
  constructor <;> linarith

theorem tdiv_eq_zero_iff (value : Int) {divisor : Int} (positive : 0 < divisor) : value.tdiv divisor = 0 ↔ |value| < divisor := by
  constructor
  · intro zero
    have error := tdiv_error value positive
    rw [zero, mul_zero, sub_zero] at error
    exact Int.lt_of_le_sub_one error
  · intro small
    obtain ⟨low, high⟩ := abs_lt.mp small
    rcases le_total 0 value with up | down
    · exact Int.tdiv_eq_zero_of_lt up high
    · have mirrored := Int.tdiv_eq_zero_of_lt (neg_nonneg.mpr down) (neg_lt.mp low)
      rwa [Int.neg_tdiv, neg_eq_zero] at mirrored

/-! ### The six kinds of trade -/

variable {holding : Holding} {signed price : Int}

theorem trade_opens (flat : holding.quantity = 0) (moves : signed ≠ 0) : holding.trade signed price = ⟨signed, price⟩ := by
  rw [trade, if_neg moves, if_pos flat]

theorem trade_increases (increases : holding.Increases signed) : holding.trade signed price = ⟨holding.quantity + signed,
    (holding.average * |holding.quantity| + price * |signed|).tdiv (|holding.quantity| + |signed|)⟩ := by
  have same : 0 < holding.quantity ↔ 0 < signed := by
    rcases increases with ⟨long, buys⟩ | ⟨short, sells⟩ <;> omega
  have moves : signed ≠ 0 := by
    rcases increases with ⟨long, buys⟩ | ⟨short, sells⟩ <;> omega
  have opened : holding.quantity ≠ 0 := by
    rcases increases with ⟨long, buys⟩ | ⟨short, sells⟩ <;> omega
  rw [trade, if_neg moves, if_neg opened, if_pos same]

theorem trade_closes (closes : holding.Closes signed) : holding.trade signed price =
    if |signed| < |holding.quantity| then ⟨holding.quantity + signed, holding.average⟩
    else if |signed| = |holding.quantity| then ⟨0, 0⟩
    else ⟨holding.quantity + signed, price⟩ := by
  have other : ¬ (0 < holding.quantity ↔ 0 < signed) := by
    rcases closes with ⟨long, sells⟩ | ⟨short, buys⟩ <;> omega
  have moves : signed ≠ 0 := by
    rcases closes with ⟨long, sells⟩ | ⟨short, buys⟩ <;> omega
  have opened : holding.quantity ≠ 0 := by
    rcases closes with ⟨long, sells⟩ | ⟨short, buys⟩ <;> omega
  rw [trade, if_neg moves, if_neg opened, if_neg other]

/-- A trade of a nonzero quantity always moves the holding by that quantity. -/
theorem trade_quantity (holding : Holding) (signed price : Int) :
    (holding.trade signed price).quantity = holding.quantity + signed := by
  by_cases moves : signed = 0
  · rw [trade, if_pos moves, moves, add_zero]
  · by_cases flat : holding.quantity = 0
    · rw [trade_opens flat moves, flat, zero_add]
    · by_cases increases : holding.Increases signed
      · rw [trade_increases increases]
      · have closes : holding.Closes signed := by
          unfold Increases at increases
          unfold Closes
          omega
        rw [trade_closes closes]
        split
        next => rfl
        next =>
          split
          next equal =>
            rcases closes with ⟨long, sells⟩ | ⟨short, buys⟩
            · rw [abs_of_neg sells, abs_of_pos long] at equal
              exact (by omega : (0 : Int) = holding.quantity + signed)
            · rw [abs_of_pos buys, abs_of_neg short] at equal
              exact (by omega : (0 : Int) = holding.quantity + signed)
          next => rfl

/-! ### Gains, cash and cost -/

theorem increase_error (increases : holding.Increases signed) (price : Int) :
    |signed * price - ((holding.trade signed price).cost - holding.cost)| ≤ |holding.quantity + signed| - 1 := by
  rw [trade_increases increases, cost, cost]
  rcases increases with ⟨long, buys⟩ | ⟨short, sells⟩
  · rw [abs_of_pos long, abs_of_pos buys, abs_of_pos (add_pos long buys)]
    have error := tdiv_error (holding.average * holding.quantity + price * signed) (add_pos long buys)
    refine le_trans (le_of_eq (congrArg abs ?_)) error
    ring
  · rw [abs_of_neg short, abs_of_neg sells, abs_of_neg (add_neg short sells)]
    have positive : 0 < -holding.quantity + -signed := by linarith
    have error := tdiv_error (holding.average * -holding.quantity + price * -signed) positive
    have total : -(holding.quantity + signed) = -holding.quantity + -signed := by ring
    rw [total, ← abs_neg]
    refine le_trans (le_of_eq (congrArg abs ?_)) error
    ring

/-- Closing realizes the price difference of the closed quantity, whether the
trade leaves something open, closes everything or turns the holding around. -/
theorem close_cost (closes : holding.Closes signed) (price : Int) :
    signed * price - ((holding.trade signed price).cost - holding.cost) =
      -((if 0 < holding.quantity then price - holding.average else holding.average - price) *
        min |holding.quantity| |signed|) := by
  rw [trade_closes closes, cost]
  rcases closes with ⟨long, sells⟩ | ⟨short, buys⟩
  · rw [if_pos long, abs_of_neg sells, abs_of_pos long]
    rcases lt_trichotomy (-signed) holding.quantity with part | all | larger
    · rw [if_pos part, min_eq_right part.le, cost]
      ring
    · rw [if_neg (by omega), if_pos all, all, min_self, cost, ← all]
      ring
    · rw [if_neg (by omega), if_neg (by omega), min_eq_left larger.le, cost]
      ring
  · rw [if_neg (not_lt_of_gt short), abs_of_pos buys, abs_of_neg short]
    rcases lt_trichotomy signed (-holding.quantity) with part | all | larger
    · rw [if_pos part, min_eq_right part.le, cost]
      ring
    · rw [if_neg (by omega), if_pos all, all, min_self, cost]
      ring
    · rw [if_neg (by omega), if_neg (by omega), min_eq_left larger.le, cost]
      ring

/-- One trade: the gain, the cash it moves and the change of the book cost. -/
theorem trade_error {scale : Int} (positive : 0 < scale) (moves : signed ≠ 0) (holding : Holding) (price : Int) :
    |scale * holding.gain scale signed price - (-(signed * price) + ((holding.trade signed price).cost - holding.cost))| ≤
      holding.rounding scale signed := by
  rw [gain, rounding]
  by_cases closes : holding.Closes signed
  · rw [if_pos closes, if_pos closes, ← abs_neg]
    have error := tdiv_error ((if 0 < holding.quantity then price - holding.average else holding.average - price) *
      min |holding.quantity| |signed|) positive
    refine le_trans (le_of_eq (congrArg abs ?_)) error
    linarith [close_cost closes price]
  · rw [if_neg closes, if_neg closes]
    by_cases increases : holding.Increases signed
    · rw [if_pos increases]
      refine le_trans (le_of_eq (congrArg abs ?_)) (increase_error increases price)
      ring
    · have flat : holding.quantity = 0 := by
        unfold Closes at closes
        unfold Increases at increases
        omega
      rw [if_neg increases, trade_opens flat moves, cost, cost, flat]
      have zero : scale * 0 - (-(signed * price) + (signed * price - 0 * holding.average)) = 0 := by ring
      rw [zero, abs_zero]

/-! ### The quantity a trade closes -/

/-- How much of a signed quantity is gone when it has become another. -/
def closed (before after : Int) : Int :=
  if 0 < before then before - min before (max after 0) else -before - min (-before) (max (-after) 0)

theorem closed_eq (holding : Holding) (signed : Int) : closed holding.quantity (holding.quantity + signed) =
    if holding.Closes signed then min |holding.quantity| |signed| else 0 := by
  by_cases closes : holding.Closes signed
  · rw [if_pos closes, closed]
    rcases closes with ⟨long, sells⟩ | ⟨short, buys⟩
    · rw [if_pos long, abs_of_pos long, abs_of_neg sells]
      omega
    · rw [if_neg (not_lt_of_gt short), abs_of_neg short, abs_of_pos buys]
      omega
  · rw [if_neg closes, closed]
    unfold Closes at closes
    split <;> omega

/-- Dividing two amounts apart loses at most one unit. -/
theorem tdiv_add_error (first second : Int) {scale : Int} (positive : 0 < scale) :
    |(first + second).tdiv scale - (first.tdiv scale + second.tdiv scale)| ≤ 1 := by
  have whole : ∀ value : Int, value.tmod scale = value - scale * value.tdiv scale := by
    intro value
    have split := Int.mul_tdiv_add_tmod value scale
    linarith
  have above : ∀ value : Int, -scale < value - scale * value.tdiv scale :=
    fun value => whole value ▸ Int.lt_tmod_of_pos value positive
  have below : ∀ value : Int, value - scale * value.tdiv scale < scale :=
    fun value => whole value ▸ Int.tmod_lt_of_pos value positive
  have nonneg : ∀ {value : Int}, 0 ≤ value → 0 ≤ value - scale * value.tdiv scale :=
    fun up => whole _ ▸ Int.tmod_nonneg scale up
  have nonpos : ∀ {value : Int}, value ≤ 0 → value - scale * value.tdiv scale ≤ 0 := by
    intro value down
    have mirrored := nonneg (neg_nonneg.mpr down)
    rw [Int.neg_tdiv] at mirrored
    linarith
  -- the three remainders leave less than two scales between them
  have near : |scale * ((first + second).tdiv scale - (first.tdiv scale + second.tdiv scale))| < scale * 2 := by
    rw [abs_lt]
    have bounds := And.intro (And.intro (above first) (below first)) (And.intro (above second) (below second))
    have sum := And.intro (above (first + second)) (below (first + second))
    rcases le_total 0 first with up | down <;> rcases le_total 0 second with rise | fall
    · have one := nonneg up
      have two := nonneg rise
      have both := nonneg (add_nonneg up rise)
      constructor <;> linarith
    · have one := nonneg up
      have two := nonpos fall
      constructor <;> linarith
    · have one := nonpos down
      have two := nonneg rise
      constructor <;> linarith
    · have one := nonpos down
      have two := nonpos fall
      have both := nonpos (add_nonpos down fall)
      constructor <;> linarith
  rw [abs_mul, abs_of_pos positive] at near
  exact Int.lt_add_one_iff.mp (lt_of_mul_lt_mul_left near positive.le)

/-! ### Any number of trades -/

/-- A signed quantity and its price. -/
abbrev Trades := List (Int × Int)

def after (holding : Holding) (trades : Trades) : Holding := trades.foldl (fun holding trade => holding.trade trade.1 trade.2) holding

def gains (scale : Int) (holding : Holding) : Trades → Int
  | [] => 0
  | (signed, price) :: rest => holding.gain scale signed price + gains scale (holding.trade signed price) rest

def roundings (scale : Int) (holding : Holding) : Trades → Int
  | [] => 0
  | (signed, price) :: rest => holding.rounding scale signed + roundings scale (holding.trade signed price) rest

def cash (trades : Trades) : Int := (trades.map fun trade => -(trade.1 * trade.2)).sum

theorem after_error {scale : Int} (positive : 0 < scale) {trades : Trades} (moves : ∀ trade ∈ trades, trade.1 ≠ 0)
    (holding : Holding) : |scale * holding.gains scale trades - (cash trades + ((holding.after trades).cost - holding.cost))| ≤
      holding.roundings scale trades := by
  induction trades generalizing holding with
  | nil => simp [gains, cash, after, roundings]
  | cons trade rest ih =>
    obtain ⟨signed, price⟩ := trade
    obtain ⟨first, others⟩ := List.forall_mem_cons.mp moves
    have one := trade_error positive first holding price
    have many := ih others (holding.trade signed price)
    have split : scale * holding.gains scale ((signed, price) :: rest) -
        (cash ((signed, price) :: rest) + ((holding.after ((signed, price) :: rest)).cost - holding.cost)) =
          (scale * holding.gain scale signed price - (-(signed * price) + ((holding.trade signed price).cost - holding.cost))) +
          (scale * (holding.trade signed price).gains scale rest -
            (cash rest + (((holding.trade signed price).after rest).cost - (holding.trade signed price).cost))) := by
      simp only [gains, cash, after, List.map_cons, List.sum_cons, List.foldl_cons]
      ring
    rw [split, roundings]
    exact (abs_add_le _ _).trans (add_le_add one many)

/-! ### The prices a holding was entered at -/

/-- A truncated weighted average lies between what it averages. -/
theorem average_between {low high first second weight other : Int} (nonneg : 0 ≤ weight) (more : 0 < other)
    (lowFirst : low ≤ first) (lowSecond : low ≤ second) (highFirst : first ≤ high) (highSecond : second ≤ high) :
    low ≤ (first * weight + second * other).tdiv (weight + other) ∧
      (first * weight + second * other).tdiv (weight + other) ≤ high := by
  have total : 0 < weight + other := by omega
  have whole : ∀ value : Int, (value * (weight + other)).tdiv (weight + other) = value :=
    fun value => Int.mul_tdiv_cancel value total.ne'
  constructor
  · rw [← whole low]
    apply Int.tdiv_le_tdiv total
    nlinarith
  · rw [← whole high]
    apply Int.tdiv_le_tdiv total
    nlinarith

/-- Between the least and the greatest of some prices. -/
def Between (value : Int) (prices : List Int) : Prop := (∃ low ∈ prices, low ≤ value) ∧ ∃ high ∈ prices, value ≤ high

/-- The prices of the trades that increased a quantity since it was last opened
or turned around, the trade that did so included. -/
def entered (quantity : Int) (prices : List Int) (signed price : Int) : List Int :=
  if (quantity + signed).sign = quantity.sign then
    if |quantity| < |quantity + signed| then prices ++ [price] else prices
  else if quantity + signed = 0 then [] else [price]

/-- A flat holding has no average price, and the average of an open one lies
between the prices it was entered at. -/
structure Priced (holding : Holding) (prices : List Int) : Prop where
  flat : holding.quantity = 0 → holding.average = 0
  opened : holding.quantity ≠ 0 → Between holding.average prices

theorem between_single (price : Int) : Between price [price] :=
  ⟨⟨price, List.mem_singleton_self price, le_refl _⟩, ⟨price, List.mem_singleton_self price, le_refl _⟩⟩

theorem sign_eq_iff {first second : Int} : first.sign = second.sign ↔ (0 < first ↔ 0 < second) ∧ (first < 0 ↔ second < 0) := by
  rcases lt_trichotomy first 0 with left | left | left <;> rcases lt_trichotomy second 0 with right | right | right <;>
    simp [left, right, Int.sign_eq_neg_one_of_neg, Int.sign_eq_one_of_pos, not_lt_of_gt]

theorem entered_opens {prices : List Int} (flat : holding.quantity = 0) (moves : signed ≠ 0) :
    entered holding.quantity prices signed price = [price] := by
  have turned : ¬ (holding.quantity + signed).sign = holding.quantity.sign := by
    rw [sign_eq_iff]
    omega
  rw [entered, if_neg turned, if_neg (by omega)]

theorem entered_increases {prices : List Int} (increases : holding.Increases signed) :
    entered holding.quantity prices signed price = prices ++ [price] := by
  unfold Increases at increases
  have same : (holding.quantity + signed).sign = holding.quantity.sign := by
    rw [sign_eq_iff]
    omega
  have larger : |holding.quantity| < |holding.quantity + signed| := by
    rcases increases with ⟨long, buys⟩ | ⟨short, sells⟩
    · rw [abs_of_pos long, abs_of_pos (add_pos long buys)]
      omega
    · rw [abs_of_neg short, abs_of_neg (add_neg short sells)]
      omega
  rw [entered, if_pos same, if_pos larger]

theorem entered_closes {prices : List Int} (closes : holding.Closes signed) :
    entered holding.quantity prices signed price =
      if |signed| < |holding.quantity| then prices else if |signed| = |holding.quantity| then [] else [price] := by
  have sizes : |signed| = -signed ∧ |holding.quantity| = holding.quantity ∧ 0 < holding.quantity ∧ signed < 0 ∨
      |signed| = signed ∧ |holding.quantity| = -holding.quantity ∧ holding.quantity < 0 ∧ 0 < signed := by
    rcases closes with ⟨long, sells⟩ | ⟨short, buys⟩
    · exact .inl ⟨abs_of_neg sells, abs_of_pos long, long, sells⟩
    · exact .inr ⟨abs_of_pos buys, abs_of_neg short, short, buys⟩
  unfold entered
  split
  next part =>
    have smaller : |signed| < |holding.quantity| := by
      rw [sign_eq_iff] at part
      omega
    have shrinks : ¬ |holding.quantity| < |holding.quantity + signed| := by
      rcases abs_cases (holding.quantity + signed) with ⟨size, -⟩ | ⟨size, -⟩ <;> omega
    rw [if_pos smaller, if_neg shrinks]
  next turned =>
    rw [sign_eq_iff] at turned
    have larger : ¬ |signed| < |holding.quantity| := by omega
    rw [if_neg larger]
    by_cases all : holding.quantity + signed = 0
    · rw [if_pos all, if_pos (by omega)]
    · rw [if_neg all, if_neg (by omega)]

/-- The average of an increased holding stays between the prices it was entered
at, the new one included. -/
theorem between_increase {prices : List Int} {average : Int} (between : Between average prices) {weight other : Int}
    (nonneg : 0 ≤ weight) (more : 0 < other) (price : Int) :
    Between ((average * weight + price * other).tdiv (weight + other)) (prices ++ [price]) := by
  obtain ⟨⟨low, lowInside, below⟩, high, highInside, above⟩ := between
  have kept : ∀ known ∈ prices, known ∈ prices ++ [price] := fun _ => List.mem_append_left _
  have new : price ∈ prices ++ [price] := List.mem_append_right _ (List.mem_singleton_self price)
  constructor
  · rcases le_total low price with cheaper | dearer
    · exact ⟨low, kept low lowInside, (average_between nonneg more below cheaper (le_max_left _ price) (le_max_right _ _)).1⟩
    · exact ⟨price, new, (average_between nonneg more (dearer.trans below) le_rfl (le_max_left _ price) (le_max_right _ _)).1⟩
  · rcases le_total high price with cheaper | dearer
    · exact ⟨price, new, (average_between nonneg more (min_le_left _ price) (min_le_right _ _) (above.trans cheaper) le_rfl).2⟩
    · exact ⟨high, kept high highInside, (average_between nonneg more (min_le_left _ price) (min_le_right _ _) above dearer).2⟩

theorem Priced.trade {prices : List Int} (priced : Priced holding prices) (signed price : Int) :
    Priced (holding.trade signed price) (entered holding.quantity prices signed price) := by
  by_cases moves : signed = 0
  · have still : entered holding.quantity prices signed price = prices := by simp [entered, moves]
    rw [still, Holding.trade, if_pos moves]
    exact priced
  · by_cases flat : holding.quantity = 0
    · rw [trade_opens flat moves, entered_opens flat moves]
      exact ⟨fun zero => absurd zero moves, fun _ => between_single price⟩
    · by_cases increases : holding.Increases signed
      · rw [trade_increases increases, entered_increases increases]
        have remains : holding.quantity + signed ≠ 0 := by
          unfold Increases at increases
          omega
        exact ⟨fun zero => absurd zero remains, fun _ => between_increase (priced.opened flat) (abs_nonneg _) (abs_pos.mpr moves) price⟩
      · have closes : holding.Closes signed := by
          unfold Increases at increases
          unfold Closes
          omega
        rw [trade_closes closes, entered_closes closes]
        split
        next smaller =>
          refine ⟨fun zero => ?_, fun _ => priced.opened flat⟩
          have equal : signed = -holding.quantity := by
            dsimp only at zero
            omega
          rw [equal, abs_neg] at smaller
          exact absurd smaller (lt_irrefl _)
        next =>
          split
          next => exact ⟨fun _ => rfl, fun opened => absurd rfl opened⟩
          next larger =>
            refine ⟨fun zero => ?_, fun _ => between_single price⟩
            have equal : signed = -holding.quantity := by
              dsimp only at zero
              omega
            exact absurd (equal ▸ abs_neg holding.quantity) larger

theorem after_quantity (holding : Holding) (trades : Trades) :
    (holding.after trades).quantity = holding.quantity + (trades.map Prod.fst).sum := by
  induction trades generalizing holding with
  | nil => exact (add_zero _).symm
  | cons trade rest ih =>
    rw [after, List.foldl_cons, ← after, ih, trade_quantity, List.map_cons, List.sum_cons, add_assoc]

/-- The prices a quantity was entered at, after some trades. -/
def entries (quantity : Int) (prices : List Int) : Trades → List Int
  | [] => prices
  | (signed, price) :: rest => entries (quantity + signed) (entered quantity prices signed price) rest

theorem Priced.after {prices : List Int} (priced : Priced holding prices) (trades : Trades) :
    Priced (holding.after trades) (entries holding.quantity prices trades) := by
  induction trades generalizing holding prices with
  | nil => exact priced
  | cons trade rest ih =>
    have later := ih (priced.trade trade.1 trade.2)
    rw [trade_quantity] at later
    exact later

/-! ### The rounding of an average -/

/-- What trades paid or received in all, and the size of their quantities. -/
def turnover (trades : Trades) : Int := (trades.map fun trade => trade.2 * |trade.1|).sum

def size (trades : Trades) : Int := (trades.map fun trade => |trade.1|).sum

/-- How far a truncated product with a divisor is below a value. -/
theorem tdiv_deficit {value divisor : Int} (nonneg : 0 ≤ value) (positive : 0 < divisor) :
    0 ≤ value - divisor * value.tdiv divisor ∧ value - divisor * value.tdiv divisor ≤ divisor - 1 := by
  have whole := Int.mul_tdiv_add_tmod value divisor
  have below := Int.tmod_lt_of_pos value positive
  have above := Int.tmod_nonneg divisor nonneg
  constructor <;> linarith

/-- A holding that trades of one direction opened and increased: its cost is
below the turnover by at most its size for each increase. -/
structure Tracks (holding : Holding) (turnover increases : Int) : Prop where
  average : 0 ≤ holding.average
  least : |holding.quantity| * holding.average ≤ turnover
  most : turnover - |holding.quantity| * holding.average ≤ increases * |holding.quantity|

theorem Increases.size (increases : holding.Increases signed) : |holding.quantity + signed| = |holding.quantity| + |signed| := by
  rcases increases with ⟨long, buys⟩ | ⟨short, sells⟩
  · rw [abs_of_pos long, abs_of_pos buys, abs_of_pos (add_pos long buys)]
  · rw [abs_of_neg short, abs_of_neg sells, abs_of_neg (add_neg short sells), neg_add]

/-- Trades of one direction stay increases after each other. -/
theorem Increases.trade {other : Int} (increases : holding.Increases signed) (next : holding.Increases other) (price : Int) :
    (holding.trade signed price).Increases other := by
  unfold Increases at *
  rw [trade_quantity]
  omega

theorem Tracks.opened (signed : Int) {price : Int} (priced : 0 ≤ price) : Tracks ⟨signed, price⟩ (price * |signed|) 0 := by
  have exactly : |signed| * price = price * |signed| := mul_comm _ _
  exact ⟨priced, exactly.le, by simp only [exactly, sub_self, zero_mul, le_refl]⟩

/-- One increase leaves out what was left out before and the remainder of its own
division. -/
theorem Tracks.trade {turnover count : Int} (tracks : Tracks holding turnover count) (counted : 0 ≤ count)
    (increases : holding.Increases signed) (priced : 0 ≤ price) :
    Tracks (holding.trade signed price) (turnover + price * |signed|) (count + 1) := by
  obtain ⟨average, least, most⟩ := tracks
  have size := increases.size
  have moved : 0 < |signed| := by
    apply abs_pos.mpr
    unfold Increases at increases
    omega
  have held := abs_nonneg holding.quantity
  have total : 0 < |holding.quantity| + |signed| := add_pos_of_nonneg_of_pos held moved
  have weighted : 0 ≤ holding.average * |holding.quantity| + price * |signed| :=
    add_nonneg (mul_nonneg average held) (mul_nonneg priced moved.le)
  obtain ⟨low, high⟩ := tdiv_deficit weighted total
  have grows : count * |holding.quantity| ≤ count * (|holding.quantity| + |signed|) :=
    mul_le_mul_of_nonneg_left (le_add_of_nonneg_right moved.le) counted
  rw [trade_increases increases]
  refine ⟨Int.tdiv_nonneg weighted total.le, ?_, ?_⟩
  · dsimp only
    rw [size]
    linarith
  · dsimp only
    rw [size]
    linarith

theorem Tracks.after {turnover count : Int} (tracks : Tracks holding turnover count) (counted : 0 ≤ count) {trades : Trades}
    (increases : ∀ trade ∈ trades, holding.Increases trade.1) (priced : ∀ trade ∈ trades, 0 ≤ trade.2) :
    Tracks (holding.after trades) (turnover + Holding.turnover trades) (count + trades.length) := by
  induction trades generalizing holding turnover count with
  | nil => simpa [Holding.turnover, Holding.after] using tracks
  | cons trade rest ih =>
    obtain ⟨first, others⟩ := List.forall_mem_cons.mp increases
    obtain ⟨price, prices⟩ := List.forall_mem_cons.mp priced
    have later := ih (tracks.trade counted first price) (by omega) (fun next member => first.trade (others next member) trade.2) prices
    have amount : turnover + trade.2 * |trade.1| + Holding.turnover rest = turnover + Holding.turnover (trade :: rest) := by
      rw [add_assoc]
      rfl
    have number : count + 1 + (rest.length : Int) = count + ((trade :: rest).length : Int) := by
      rw [List.length_cons]
      omega
    rwa [amount, number] at later

theorem after_size {trades : Trades} (increases : ∀ trade ∈ trades, holding.Increases trade.1) :
    |(holding.after trades).quantity| = |holding.quantity| + size trades := by
  induction trades generalizing holding with
  | nil => exact (add_zero _).symm
  | cons trade rest ih =>
    obtain ⟨first, others⟩ := List.forall_mem_cons.mp increases
    have later := ih fun next member => first.trade (others next member) trade.2
    rw [trade_quantity, first.size, add_assoc] at later
    exact later

/-- Trades of one direction, made from nothing: the cost is below the turnover by
at most the size for each trade after the first. -/
theorem average_deficit (flat : holding.quantity = 0) {first : Int × Int} {rest : Trades} (moves : first.1 ≠ 0)
    (direction : ∀ trade ∈ rest, 0 < first.1 ∧ 0 < trade.1 ∨ first.1 < 0 ∧ trade.1 < 0)
    (priced : ∀ trade ∈ first :: rest, 0 ≤ trade.2) :
    size (first :: rest) * (holding.after (first :: rest)).average ≤ turnover (first :: rest) ∧
      turnover (first :: rest) - size (first :: rest) * (holding.after (first :: rest)).average ≤ rest.length * size (first :: rest) := by
  obtain ⟨price, prices⟩ := List.forall_mem_cons.mp priced
  have tracks := (Tracks.opened first.1 price).after (le_refl 0) direction prices
  have quantity := @after_size ⟨first.1, first.2⟩ rest direction
  have opened : holding.after (first :: rest) = Holding.after ⟨first.1, first.2⟩ rest := by
    rw [after, List.foldl_cons, trade_opens flat moves]
    rfl
  have whole : |(Holding.after ⟨first.1, first.2⟩ rest).quantity| = size (first :: rest) := quantity
  have amount : first.2 * |first.1| + turnover rest = turnover (first :: rest) := rfl
  obtain ⟨-, least, most⟩ := tracks
  rw [whole, amount] at least most
  rw [zero_add] at most
  rw [opened]
  exact ⟨least, most⟩

end Holding
end FinanceTech.Library
