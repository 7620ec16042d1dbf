import FinanceTech.OrderBook
import FinanceTech.Position

/-! The profit of a position: what a trade realizes, what the market makes of
the quantity that is open, and both together. -/

namespace FinanceTech.Trading

structure PnL where
  realized : Price := 0
  unrealized : Price := 0
deriving DecidableEq, Repr

def PnL.total (pnl : PnL) : Price := pnl.realized + pnl.unrealized

namespace PnLCalculator

/-- A long position is marked at the bid and a short one at the ask. -/
def calculateUnrealized (position : Position) (marketEvent : MarketEvent) : Price :=
  if position.currentQuantity = 0 then 0
  else if position.currentQuantity > 0 then
    if marketEvent.bestBidQuantity.isZero then 0
    else fromProduct (marketEvent.bestBid.raw.toInt - position.averageEntryPrice.raw.toInt) position.currentQuantity.toInt
  else if marketEvent.bestAskQuantity.isZero then 0
  else fromProduct (position.averageEntryPrice.raw.toInt - marketEvent.bestAsk.raw.toInt) (absolute position.currentQuantity.toInt)

/-- The same position is given to both, which is the one before the report. -/
def calculate (position : Position) (report : ExecutionReport) (marketEvent : MarketEvent) : PnL :=
  { realized := calculateRealized position report
    unrealized := calculateUnrealized position marketEvent }

end PnLCalculator
end FinanceTech.Trading
