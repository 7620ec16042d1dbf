import FinanceTech.Library.SortedMap

/-! The pricing engine keeps each side of a book in a `flat_map` from prices to
quantities, best price first. A price is a number: the order is total. -/

namespace FinanceTech.Pricing
open Library

structure PriceLevel (Price Quantity : Type) where
  price : Price
  quantity : Quantity
deriving DecidableEq, Repr

abbrev LevelMap (Price Quantity : Type) (before : Price → Price → Prop) := SortedMap.Map Price Quantity before

structure PricingEngine (Price Quantity : Type) [LinearOrder Price] where
  bidPriceLevelMap : LevelMap Price Quantity (· > ·) := .empty
  askPriceLevelMap : LevelMap Price Quantity (· < ·) := .empty

namespace PricingEngine

variable {Price Quantity : Type} [LinearOrder Price]

/-- `emplace`, and an assignment through its iterator when the price is there. -/
def addLevel {before : Price → Price → Prop} [IsStrictTotalOrder Price before] [DecidableRel before]
    (priceLevel : PriceLevel Price Quantity) (levelMap : LevelMap Price Quantity before) : LevelMap Price Quantity before :=
  levelMap.insertOrAssign priceLevel.price priceLevel.quantity

/-- The map without the price, and how many levels that took away. -/
def removeLevel {before : Price → Price → Prop} (priceLevel : PriceLevel Price Quantity) (levelMap : LevelMap Price Quantity before) :
    LevelMap Price Quantity before × Nat :=
  (levelMap.erase priceLevel.price, if (levelMap.find? priceLevel.price).isSome then 1 else 0)

def addBidPrice (engine : PricingEngine Price Quantity) (priceLevel : PriceLevel Price Quantity) : PricingEngine Price Quantity :=
  { engine with bidPriceLevelMap := addLevel priceLevel engine.bidPriceLevelMap }

def addAskPrice (engine : PricingEngine Price Quantity) (priceLevel : PriceLevel Price Quantity) : PricingEngine Price Quantity :=
  { engine with askPriceLevelMap := addLevel priceLevel engine.askPriceLevelMap }

def removeBidPrice (engine : PricingEngine Price Quantity) (priceLevel : PriceLevel Price Quantity) : PricingEngine Price Quantity :=
  { engine with bidPriceLevelMap := (removeLevel priceLevel engine.bidPriceLevelMap).1 }

def removeAskPrice (engine : PricingEngine Price Quantity) (priceLevel : PriceLevel Price Quantity) : PricingEngine Price Quantity :=
  { engine with askPriceLevelMap := (removeLevel priceLevel engine.askPriceLevelMap).1 }

variable [Zero Quantity] [DecidableEq Quantity]

def handleBidUpdate (engine : PricingEngine Price Quantity) (priceLevel : PriceLevel Price Quantity) : PricingEngine Price Quantity :=
  if priceLevel.quantity = 0 then engine.removeBidPrice priceLevel else engine.addBidPrice priceLevel

def handleAskUpdate (engine : PricingEngine Price Quantity) (priceLevel : PriceLevel Price Quantity) : PricingEngine Price Quantity :=
  if priceLevel.quantity = 0 then engine.removeAskPrice priceLevel else engine.addAskPrice priceLevel

end PricingEngine
end FinanceTech.Pricing
