/-! The averages that currencies are judged by. -/
namespace WaterPeg

/-- Significant averages over a number of days up to now; `none` where there are not enough data. -/
structure PriceFeed where
  /-- Currencies with any observations. -/
  currencies : List String
  /-- Price of a liter of water in a currency. -/
  waterPrice : String → UInt64 → UInt64 → Option UInt64
  /-- Rate of a pair of currencies. -/
  exchangeRate : String → String → UInt64 → UInt64 → Option UInt64

end WaterPeg
