import WaterPeg.Moments

/-! The averages of one currency on one day, kept when the observations themselves are pruned. -/
namespace WaterPeg

structure DayKey where
  currency : String
  date : Date
deriving DecidableEq

namespace DayKey

instance : Ord DayKey := ⟨compareLex (compareOn currency) (compareOn date)⟩

instance : Std.TransOrd DayKey :=
  inferInstanceAs (Std.TransCmp (compareLex (compareOn currency) (compareOn date)))

instance : Std.LawfulEqOrd DayKey :=
  lawfulEqCmp_compareLex currency date fun a b hc hd => by
    cases a; cases b
    simp_all

/-- The currency code, a zero byte and the text of the date. -/
def storeId (k : DayKey) : Bytes :=
  Bytes.ofString k.currency ++ 0 :: Bytes.ofString k.date.text

end DayKey

structure Rollup where
  currency : String
  date : Date
  waterPrice : Option UInt64
  exchangeRate : Option UInt64
  count : UInt64
  stdDev : UInt64
  confidence : Confidence
  isSignificant : Bool
  isStable : Bool
  blockHeight : UInt64
deriving DecidableEq

namespace Rollup

def key (r : Rollup) : DayKey := ⟨r.currency, r.date⟩

def fields : List String :=
  ["currency", "date", "avg_water_price_micro", "avg_exchange_rate_micro", "measurement_count",
    "std_deviation_micro", "confidence", "is_significant", "is_stable", "block_height"]

instance : JsonForm Rollup where
  toJson r :=
    .record fields
      [toJson r.currency, toJson r.date, toJson r.waterPrice, toJson r.exchangeRate,
        toJson r.count, toJson r.stdDev, toJson r.confidence, toJson r.isSignificant,
        toJson r.isStable, toJson r.blockHeight]
  ofJson? j :=
    match j.fields? fields with
    | some [currency, date, waterPrice, exchangeRate, count, stdDev, confidence, isSignificant,
        isStable, blockHeight] => do
      some
        { currency := ← Json.required? currency
          date := ← Json.required? date
          waterPrice := ← Json.optional? waterPrice
          exchangeRate := ← Json.optional? exchangeRate
          count := ← Json.required? count
          stdDev := ← Json.required? stdDev
          confidence := ← Json.required? confidence
          isSignificant := ← Json.required? isSignificant
          isStable := ← Json.required? isStable
          blockHeight := ← Json.required? blockHeight }
    | _ => none

end Rollup

end WaterPeg
