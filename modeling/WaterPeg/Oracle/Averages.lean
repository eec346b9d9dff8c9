import WaterPeg.Currency
import WaterPeg.Oracle
import WaterPeg.PriceFeed
import WaterPeg.Target

/-! Averages over windows of days, and what is derived from them. -/
namespace WaterPeg

/-- The distance of a value from a reference, in parts per million of the reference. A reference of
zero counts as far as itself. -/
def deviation (measured reference : UInt64) : UInt64 :=
  if reference = 0 then 1000000
  else UInt64.ofNat (absDiff measured.toNat reference.toNat * ppm / reference.toNat)

namespace Oracle

def waterWindow (o : Oracle) (currency : String) (days now : UInt64) : List UInt64 :=
  o.tables.waterPrices currency (Tables.windowStart now days) now o.params.requirePeerValidation

def exchangeWindow (o : Oracle) (base quote : String) (days now : UInt64) : List UInt64 :=
  o.tables.exchangeRates base quote (Tables.windowStart now days) now o.params.requirePeerValidation

def summarize? (o : Oracle) (values : List UInt64) : Option Summary :=
  Summary.of? values o.params.averagingWidth o.params.minSignificantSamples

def waterSummary? (o : Oracle) (currency : String) (days now : UInt64) : Option Summary :=
  o.summarize? (o.waterWindow currency days now)

def exchangeSummary? (o : Oracle) (base quote : String) (days now : UInt64) : Option Summary :=
  o.summarize? (o.exchangeWindow base quote days now)

def significant? (s : Option Summary) : Option UInt64 :=
  (s.filter Summary.isSignificant).map Summary.value

def waterAverage? (o : Oracle) (currency : String) (days now : UInt64) : Option UInt64 :=
  significant? (o.waterSummary? currency days now)

def exchangeAverage? (o : Oracle) (base quote : String) (days now : UInt64) : Option UInt64 :=
  significant? (o.exchangeSummary? base quote days now)

/-- The rate at which a pegged currency should trade: a week's water price in its fiat money, or one
if there is none. -/
def theoreticalRate (o : Oracle) (currency : String) (now : UInt64) : UInt64 :=
  ((Currency.fiat? currency).bind fun fiat => o.waterAverage? fiat 7 now).getD 1000000

def rateDeviation (o : Oracle) (currency : String) (measured now : UInt64) : UInt64 :=
  deviation measured (o.theoreticalRate currency now)

/-- The variation of the observations that a target is set by, if there are enough of them. -/
def targetVariation? (o : Oracle) (kind : MeasurementKind) (currency : String) (now : UInt64) :
    Option UInt64 :=
  let days := o.targets.windowDays
  let values :=
    if kind.isExchange then
      match Currency.fiat? currency with
      | some fiat => o.exchangeWindow currency fiat days now
      | none => []
    else o.waterWindow currency days now
  ((Moments.of? values).filter fun m => o.params.minSignificantSamples.toNat ≤ m.count).map
    Moments.variation

def target? (o : Oracle) (kind : MeasurementKind) (currency : String) (now : UInt64) :
    Option UInt64 :=
  o.targets.daily? o.tables.firstSeen[currency]? now (o.targetVariation? kind currency now)

def feed (o : Oracle) : PriceFeed where
  currencies := o.tables.currencies
  waterPrice := o.waterAverage?
  exchangeRate := o.exchangeAverage?

end Oracle

end WaterPeg
