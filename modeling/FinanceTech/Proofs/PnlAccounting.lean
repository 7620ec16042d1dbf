import FinanceTech.Library.AverageCost
import FinanceTech.Position

/-! The position and the profit calculator do average-cost accounting. While no
value leaves 64 bits, a trade of a position is a trade of the holding it stands
for and the realized profit is its gain, so the rules for holdings carry over to
any sequence of reports. -/

namespace FinanceTech.Proofs.PnlAccounting
open Library Trading PnLCalculator

def holdingOf (position : Position) : Holding := ⟨position.currentQuantity.toInt, position.averageEntryPrice.raw.toInt⟩

/-- The quantity of a report, negative for a sell. -/
def signedOf (report : ExecutionReport) : Int := if report.side = .buy then report.quantity.raw.toInt else -report.quantity.raw.toInt

/-- A report of an executed trade of a positive quantity. -/
structure IsTrade (report : ExecutionReport) : Prop where
  execType : report.execType = .trade
  positive : 0 < report.quantity.raw.toInt

/-- Every value that the source computes for this trade fits its 64 bits. -/
structure InRange (position : Position) (report : ExecutionReport) : Prop where
  quantity : Fits |position.currentQuantity.toInt + signedOf report|
  realized : Fits ((holdingOf position).gain PRICE_SCALE (signedOf report) report.price.raw.toInt)

def apply (position : Position) (report : ExecutionReport) : Position :=
  position.applyTrade report.side report.price report.quantity

theorem scale_positive : 0 < PRICE_SCALE := by decide

private theorem toInt_stdAbs {value : Int64} (fits : Fits |value.toInt|) : (stdAbs value).toInt = |value.toInt| := by
  rw [stdAbs]
  split
  next negative =>
    have below : value.toInt < 0 := Int64.lt_iff_toInt_lt.mp negative
    rw [abs_of_neg below] at fits ⊢
    exact toInt_neg_of_fits fits
  next other =>
    have above : ¬ value.toInt < 0 := fun below => other (Int64.lt_iff_toInt_lt.mpr below)
    rw [abs_of_nonneg (not_lt.mp above)]

theorem abs_signed {report : ExecutionReport} (trade : IsTrade report) : |signedOf report| = report.quantity.raw.toInt := by
  rw [signedOf]
  split
  · exact abs_of_pos trade.positive
  · rw [abs_neg, abs_of_pos trade.positive]

private theorem signed_ne_zero {report : ExecutionReport} (trade : IsTrade report) : signedOf report ≠ 0 := by
  have positive := trade.positive
  rw [← abs_signed trade] at positive
  exact abs_pos.mp positive

theorem quantity_present {report : ExecutionReport} (trade : IsTrade report) : report.quantity.isZero = false := by
  have positive := trade.positive
  rw [Bool.eq_false_iff]
  intro zero
  rw [(ScaledValue.isZero_iff _).mp zero] at positive
  exact absurd positive (by decide)

theorem absolute_eq_abs (value : Int) : absolute value = |value| := by
  unfold absolute
  split
  next below => exact (abs_of_neg below).symm
  next above => exact (abs_of_nonneg (Int.not_lt.mp above)).symm

theorem eq_zero_iff (value : Int64) : value = 0 ↔ value.toInt = 0 := Int64.toInt_inj.symm

private theorem toInt_min (first second : Int64) : (min first second).toInt = min first.toInt second.toInt := by
  change (if first ≤ second then first else second).toInt = _
  rw [min_def]
  simp only [Int64.le_iff_toInt_le]
  split <;> rfl

private theorem average_fits {first second weight other : Int} (left : Fits first) (right : Fits second) (positive : 0 ≤ weight)
    (more : 0 < other) : Fits ((first * weight + second * other).tdiv (weight + other)) := by
  have highest : ∀ {value : Int}, Fits value → value ≤ 2 ^ 63 - 1 := fun fits => Int.le_sub_one_of_lt fits.2
  obtain ⟨low, high⟩ := Holding.average_between positive more left.1 right.1 (highest left) (highest right)
  exact ⟨low, Int.lt_of_le_sub_one high⟩

theorem fits_of_abs {value : Int} (fits : Fits |value|) : Fits value := by
  obtain ⟨lower, upper⟩ := fits
  have negative := neg_abs_le value
  have positive := le_abs_self value
  unfold Fits
  omega

private theorem abs_add_same {first second : Int} (opened : first ≠ 0) (direction : 0 < first ↔ 0 < second) (moves : second ≠ 0) :
    |first| + |second| = |first + second| := by
  rcases lt_or_gt_of_ne opened with short | long
  · have sells : second < 0 := by omega
    rw [abs_of_neg short, abs_of_neg sells, abs_of_neg (add_neg short sells)]
    ring
  · have buys : 0 < second := direction.mp long
    rw [abs_of_pos long, abs_of_pos buys, abs_of_pos (add_pos long buys)]

def signedInt (side : Side) (quantity : Quantity) : Int := if side = .buy then quantity.raw.toInt else -quantity.raw.toInt

def signedRaw (side : Side) (quantity : Quantity) : Int64 := if side = .buy then quantity.raw else -quantity.raw

/-- Every value that a position computes for a trade of a signed quantity fits
its 64 bits. -/
structure Representable (quantity signed : Int) : Prop where
  change : Fits signed
  total : Fits (quantity + signed)
  sizes : quantity ≠ 0 → signed ≠ 0 →
    Fits |quantity| ∧ Fits |signed| ∧ ((0 < quantity ↔ 0 < signed) → Fits (|quantity| + |signed|))

section Trade

variable {position : Position} {side : Side} {price : Price} {quantity : Quantity}

private theorem toInt_signedRaw (fits : Fits (signedInt side quantity)) : (signedRaw side quantity).toInt = signedInt side quantity := by
  unfold signedInt at fits ⊢
  unfold signedRaw
  split
  next => rfl
  next sells =>
    rw [if_neg sells] at fits
    exact toInt_neg_of_fits fits

private theorem signedInt_eq_zero : signedInt side quantity = 0 ↔ quantity.isZero = true := by
  rw [ScaledValue.isZero, decide_eq_true_eq, eq_zero_iff, signedInt]
  split <;> omega

private theorem applyTrade_unfolds (moves : ¬ quantity.isZero = true) : position.applyTrade side price quantity =
    if position.currentQuantity = 0 then
      { position with currentQuantity := signedRaw side quantity, averageEntryPrice := price }
    else if position.currentQuantity > 0 ↔ signedRaw side quantity > 0 then
      { position with
        currentQuantity := position.currentQuantity + signedRaw side quantity
        averageEntryPrice := ⟨Int64.ofInt ((position.averageEntryPrice.raw.toInt * (stdAbs position.currentQuantity).toInt +
          price.raw.toInt * (stdAbs (signedRaw side quantity)).toInt).tdiv
            (stdAbs position.currentQuantity + stdAbs (signedRaw side quantity)).toInt)⟩ }
    else if stdAbs (signedRaw side quantity) < stdAbs position.currentQuantity then
      { position with currentQuantity := position.currentQuantity + signedRaw side quantity }
    else if stdAbs (signedRaw side quantity) = stdAbs position.currentQuantity then
      { position with currentQuantity := 0, averageEntryPrice := 0 }
    else
      { position with currentQuantity := position.currentQuantity + signedRaw side quantity, averageEntryPrice := price } := by
  rw [Position.applyTrade, if_neg moves]
  rfl

/-- The average entry price of an increased position. -/
private theorem toInt_average {current signed : Int64} {first second : Int} (left : Fits first) (right : Fits second)
    (currentFits : Fits |current.toInt|) (signedFits : Fits |signed.toInt|) (totalFits : Fits (|current.toInt| + |signed.toInt|))
    (moves : signed.toInt ≠ 0) :
    (Int64.ofInt ((first * (stdAbs current).toInt + second * (stdAbs signed).toInt).tdiv (stdAbs current + stdAbs signed).toInt)).toInt =
      (first * |current.toInt| + second * |signed.toInt|).tdiv (|current.toInt| + |signed.toInt|) := by
  have size := toInt_stdAbs currentFits
  have other := toInt_stdAbs signedFits
  have room : Fits ((stdAbs current).toInt + (stdAbs signed).toInt) := by
    rw [size, other]
    exact totalFits
  rw [toInt_add_of_fits room, size, other]
  apply toInt_ofInt_of_fits
  exact average_fits left right (abs_nonneg _) (abs_pos.mpr moves)

theorem applyTrade_holding (price : Price) (representable : Representable position.currentQuantity.toInt (signedInt side quantity)) :
    holdingOf (position.applyTrade side price quantity) =
      (holdingOf position).trade (signedInt side quantity) price.raw.toInt := by
  have signed := toInt_signedRaw representable.change
  have flat : position.currentQuantity = 0 ↔ (holdingOf position).quantity = 0 := eq_zero_iff _
  by_cases nothing : quantity.isZero = true
  · rw [Position.applyTrade, if_pos nothing, Holding.trade, if_pos (signedInt_eq_zero.mpr nothing)]
  · have moves : signedInt side quantity ≠ 0 := fun zero => nothing (signedInt_eq_zero.mp zero)
    rw [applyTrade_unfolds nothing, Holding.trade, if_neg moves]
    by_cases empty : position.currentQuantity = 0
    · rw [if_pos empty, if_pos (flat.mp empty)]
      simp only [holdingOf, signed]
    · have opened := mt flat.mpr empty
      obtain ⟨currentFits, signedFits, totalFits⟩ := representable.sizes opened moves
      rw [← signed] at signedFits totalFits
      have sum : (position.currentQuantity + signedRaw side quantity).toInt =
          position.currentQuantity.toInt + signedInt side quantity := by
        rw [toInt_add_of_fits (signed.symm ▸ representable.total), signed]
      have same : (position.currentQuantity > 0 ↔ signedRaw side quantity > 0) ↔
          (0 < (holdingOf position).quantity ↔ 0 < signedInt side quantity) := by
        rw [gt_iff_lt, gt_iff_lt, Int64.lt_iff_toInt_lt, Int64.lt_iff_toInt_lt, signed]
        rfl
      have smaller : stdAbs (signedRaw side quantity) < stdAbs position.currentQuantity ↔
          |signedInt side quantity| < |(holdingOf position).quantity| := by
        rw [Int64.lt_iff_toInt_lt, toInt_stdAbs signedFits, toInt_stdAbs currentFits, signed]
        rfl
      have equal : stdAbs (signedRaw side quantity) = stdAbs position.currentQuantity ↔
          |signedInt side quantity| = |(holdingOf position).quantity| := by
        rw [← Int64.toInt_inj, toInt_stdAbs signedFits, toInt_stdAbs currentFits, signed]
        rfl
      rw [if_neg empty, if_neg opened]
      simp only [same, smaller, equal]
      split
      next direction =>
        have average := toInt_average (fits_toInt position.averageEntryPrice.raw) (fits_toInt price.raw) currentFits signedFits
          (totalFits (signed.symm ▸ direction)) (signed.symm ▸ moves)
        simp only [holdingOf, sum, average, signed]
      next other =>
        split
        next => simp only [holdingOf, sum]
        next =>
          split
          next => rfl
          next => simp only [holdingOf, sum]

end Trade

/-- A price against the average entry price, in favour of the side that is held. -/
def priceDifference (position : Position) (price : Price) : Int :=
  if 0 < position.currentQuantity.toInt then price.raw.toInt - position.averageEntryPrice.raw.toInt
  else position.averageEntryPrice.raw.toInt - price.raw.toInt

/-- Whether the report names the side that is opposite to the position. -/
def Faces (position : Position) (report : ExecutionReport) : Prop :=
  0 < position.currentQuantity.toInt ∧ report.side = .sell ∨ position.currentQuantity.toInt < 0 ∧ report.side = .buy

instance (position : Position) (report : ExecutionReport) : Decidable (Faces position report) :=
  inferInstanceAs (Decidable (_ ∨ _))

section Report

variable {position : Position} {report : ExecutionReport}

private theorem representable_of_trade (trade : IsTrade report) (absolute : Fits |position.currentQuantity.toInt|)
    (inRange : InRange position report) : Representable position.currentQuantity.toInt (signedOf report) := by
  have size : Fits |signedOf report| := by
    rw [abs_signed trade]
    exact fits_toInt _
  refine ⟨fits_of_abs size, fits_of_abs inRange.quantity, fun opened moves => ⟨absolute, size, fun direction => ?_⟩⟩
  rw [abs_add_same opened direction moves]
  exact inRange.quantity

theorem apply_trades (representable : Representable position.currentQuantity.toInt (signedOf report)) :
    holdingOf (apply position report) = (holdingOf position).trade (signedOf report) report.price.raw.toInt :=
  applyTrade_holding report.price representable

theorem apply_representable (representable : Representable position.currentQuantity.toInt (signedOf report)) :
    (apply position report).currentQuantity.toInt = position.currentQuantity.toInt + signedOf report := by
  have quantity := congrArg Holding.quantity (apply_trades representable)
  rwa [Holding.trade_quantity] at quantity

theorem calculateRealized_eq (trade : report.execType = .trade) (some : report.quantity.isZero = false) :
    calculateRealized position report = if Faces position report then
      fromProduct (priceDifference position report.price) (min |position.currentQuantity.toInt| report.quantity.raw.toInt)
    else 0 := by
  have counts : ¬ (report.execType ≠ .trade ∨ report.quantity.isZero = true) := by simp [trade, some]
  have long : position.currentQuantity > 0 ↔ 0 < position.currentQuantity.toInt := Int64.lt_iff_toInt_lt
  have short : position.currentQuantity < 0 ↔ position.currentQuantity.toInt < 0 := Int64.lt_iff_toInt_lt
  rw [calculateRealized, if_neg counts]
  simp only [eq_zero_iff, long, short, Faces, priceDifference]
  rcases lt_trichotomy position.currentQuantity.toInt 0 with sold | flat | bought
  · simp [sold, sold.ne, not_lt_of_gt sold, absolute_eq_abs]
  · simp [flat]
  · simp [bought, bought.ne', not_lt_of_gt bought, abs_of_pos bought, toInt_min]

theorem closes_iff_faces (positive : 0 < report.quantity.raw.toInt) :
    (holdingOf position).Closes (signedOf report) ↔ Faces position report := by
  unfold Holding.Closes Faces holdingOf
  rw [signedOf]
  cases side : report.side with
  | buy => simp; omega
  | sell => simp; omega

private theorem calculateRealized_gain (trade : IsTrade report) (inRange : InRange position report) :
    (calculateRealized position report).raw.toInt =
      (holdingOf position).gain PRICE_SCALE (signedOf report) report.price.raw.toInt := by
  rw [calculateRealized_eq trade.execType (quantity_present trade), ← toInt_ofInt_of_fits inRange.realized, Holding.gain,
    abs_signed trade]
  simp only [closes_iff_faces trade.positive]
  split
  next => rfl
  next => rfl

end Report

/-- The realized profit of all reports, each taken at the position before it. -/
def realizedTotal (position : Position) : List ExecutionReport → Int
  | [] => 0
  | report :: rest => (calculateRealized position report).raw.toInt + realizedTotal (apply position report) rest

/-- The cash the reports move: buying pays and selling receives. -/
def cashTotal (reports : List ExecutionReport) : Int :=
  (reports.map fun report => -(signedOf report * report.price.raw.toInt)).sum

/-- One unit less than the scale for each trade that closes some quantity, and
one less than the new quantity for each trade that increases an open position. -/
def roundingTotal (position : Position) : List ExecutionReport → Int
  | [] => 0
  | report :: rest =>
    (if (holdingOf position).Closes (signedOf report) then PRICE_SCALE - 1
      else if (holdingOf position).Increases (signedOf report) then |(apply position report).currentQuantity.toInt| - 1
      else 0) + roundingTotal (apply position report) rest

def bookCost (position : Position) : Int := position.currentQuantity.toInt * position.averageEntryPrice.raw.toInt

def AllInRange (position : Position) : List ExecutionReport → Prop
  | [] => True
  | report :: rest => InRange position report ∧ AllInRange (apply position report) rest

instance (position : Position) (report : ExecutionReport) : Decidable (InRange position report) :=
  decidable_of_iff (_ ∧ _) ⟨fun both => ⟨both.1, both.2⟩, fun range => ⟨range.quantity, range.realized⟩⟩

instance AllInRange.decidable (position : Position) : (reports : List ExecutionReport) → Decidable (AllInRange position reports)
  | [] => .isTrue trivial
  | report :: rest =>
    have := decidable (apply position report) rest
    inferInstanceAs (Decidable (_ ∧ _))

def tradesOf (reports : List ExecutionReport) : Holding.Trades :=
  reports.map fun report => (signedOf report, report.price.raw.toInt)

/-- What the position and the calculator do with the reports is what average-cost
accounting does with their trades. -/
private theorem totals_holding {position : Position} {reports : List ExecutionReport} (trades : ∀ report ∈ reports, IsTrade report)
    (absolute : Fits |position.currentQuantity.toInt|) (inRange : AllInRange position reports) :
    realizedTotal position reports = (holdingOf position).gains PRICE_SCALE (tradesOf reports) ∧
      roundingTotal position reports = (holdingOf position).roundings PRICE_SCALE (tradesOf reports) ∧
      holdingOf (reports.foldl apply position) = (holdingOf position).after (tradesOf reports) := by
  induction reports generalizing position with
  | nil => exact ⟨rfl, rfl, rfl⟩
  | cons report rest ih =>
    obtain ⟨trade, others⟩ := List.forall_mem_cons.mp trades
    obtain ⟨range, later⟩ := inRange
    have representable := representable_of_trade trade absolute range
    have quantity := apply_representable representable
    have step := apply_trades representable
    obtain ⟨gains, roundings, final⟩ := ih others (quantity ▸ range.quantity) later
    rw [step] at gains roundings final
    refine ⟨?_, ?_, final⟩
    · rw [realizedTotal, calculateRealized_gain trade range, gains]
      rfl
    · rw [roundingTotal, roundings, quantity]
      rfl

private theorem cash_trades (reports : List ExecutionReport) : Holding.cash (tradesOf reports) = cashTotal reports := by
  rw [Holding.cash, tradesOf, List.map_map]
  rfl

/-- Realized profit, cash and book cost of a flat position agree after any
trades, up to the rounding of each. -/
theorem realized_cash_cost {position : Position} (flat : position.currentQuantity = 0) {reports : List ExecutionReport}
    (trades : ∀ report ∈ reports, IsTrade report) (inRange : AllInRange position reports) :
    |PRICE_SCALE * realizedTotal position reports - (cashTotal reports + bookCost (reports.foldl apply position))| ≤
      roundingTotal position reports := by
  have absolute : Fits |position.currentQuantity.toInt| := by
    rw [flat]
    decide
  obtain ⟨gains, roundings, final⟩ := totals_holding trades absolute inRange
  have moves : ∀ trade ∈ tradesOf reports, trade.1 ≠ 0 := by
    intro trade member
    obtain ⟨report, present, rfl⟩ := List.mem_map.mp member
    exact signed_ne_zero (trades report present)
  have error := Holding.after_error scale_positive moves (holdingOf position)
  have initial : (holdingOf position).cost = 0 := by
    rw [Holding.cost, holdingOf, flat]
    exact zero_mul _
  have cost : ((holdingOf position).after (tradesOf reports)).cost = bookCost (reports.foldl apply position) := by
    rw [← final]
    rfl
  rwa [← gains, ← roundings, cash_trades, initial, sub_zero, cost] at error

instance (report : ExecutionReport) : Decidable (IsTrade report) :=
  decidable_of_iff (_ ∧ _) ⟨fun both => ⟨both.1, both.2⟩, fun trade => ⟨trade.execType, trade.positive⟩⟩

/-- An open, an increase, a partial close and a reversal. -/
theorem realized_cash_cost_reversal :
    let reports : List ExecutionReport := [
      { side := .buy, execType := .trade, price := ⟨10000000001⟩, quantity := ⟨300000000⟩ },
      { side := .buy, execType := .trade, price := ⟨10100000002⟩, quantity := ⟨200000001⟩ },
      { side := .sell, execType := .trade, price := ⟨10300000000⟩, quantity := ⟨400000000⟩ },
      { side := .sell, execType := .trade, price := ⟨9900000007⟩, quantity := ⟨500000000⟩ }]
    |PRICE_SCALE * realizedTotal {} reports - (cashTotal reports + bookCost (reports.foldl apply {}))| ≤
      roundingTotal {} reports :=
  realized_cash_cost rfl (by decide) (by decide)

end FinanceTech.Proofs.PnlAccounting
