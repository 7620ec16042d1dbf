/-! Orders and trades as the matching engines see them. The fields of
`Common::Order` that no engine reads are left out. -/

namespace FinanceTech.Matching

abbrev OrderID := UInt64
abbrev Price := UInt64
abbrev Quantity := UInt64

inductive OrderSide where
  | buy | sell
deriving DecidableEq, Repr

inductive OrderActionType where
  | new | amend | cancel | recovery | recoveryEnd
deriving DecidableEq, Repr

structure Order where
  side : OrderSide := .buy
  action : OrderActionType := .new
  orderId : OrderID := 0
  price : Price := 0
  quantity : Quantity := 0
deriving DecidableEq, Repr

def OrderSide.opposite : OrderSide → OrderSide
  | .buy => .sell
  | .sell => .buy

/-- One side of a trade. The source declares both fields as `Order::OrderID`. -/
structure OrderInfo where
  id : OrderID := 0
  price : Price := 0
deriving DecidableEq, Repr

structure Trade where
  buyOrderInfo : OrderInfo := {}
  sellOrderInfo : OrderInfo := {}
  quantity : UInt32 := 0
deriving DecidableEq, Repr

namespace Trade

def addOrder (order : Order) : OrderInfo := { id := order.orderId, price := order.price }

def setBuyOrder (trade : Trade) (order : Order) : Trade := { trade with buyOrderInfo := addOrder order }

def setSellOrder (trade : Trade) (order : Order) : Trade := { trade with sellOrderInfo := addOrder order }

/-- The parameter is a `uint32_t`: a wider quantity is narrowed at the call. -/
def setQuantity (trade : Trade) (quantity : UInt32) : Trade := { trade with quantity }

/-- The trade that the matching loops record for an incoming order and the
resting one they reach. -/
def between (order matchedOrder : Order) : Trade :=
  let trade := ({} : Trade).setQuantity (min matchedOrder.quantity order.quantity).toUInt32
  match order.side with
  | .sell => (trade.setBuyOrder matchedOrder).setSellOrder order
  | .buy => (trade.setBuyOrder order).setSellOrder matchedOrder

end Trade

/-- Where an object lives. The engines hold pointers and list iterators. -/
abbrev Address := Nat

end FinanceTech.Matching
