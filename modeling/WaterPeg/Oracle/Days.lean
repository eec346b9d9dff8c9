import WaterPeg.Oracle.Averages

/-! Rolling up the observations of a day. -/
namespace WaterPeg.Oracle

/-- A pegged currency was stable on a day when its rate was near the price of water in its fiat
money over the week up to the end of that day. Any other currency counts as stable. -/
def wasStable (o : Oracle) (currency : String) (rate : Option UInt64) (stop : UInt64) : Bool :=
  match Currency.fiat? currency with
  | none => true
  | some fiat =>
    match rate with
    | none => false
    | some rate =>
      let reference :=
        match o.summarize? (o.waterWindow fiat 7 stop) with
        | some s => if s.isSignificant then s.value else 1000000
        | none => 1000000
      deviation rate reference ≤ o.params.dailyTolerance

def rollup (o : Oracle) (currency : String) (date : Date) (start stop blockHeight : UInt64) :
    Rollup :=
  let validatedOnly := o.params.requirePeerValidation
  let prices := o.tables.waterPrices currency start stop validatedOnly
  let rates :=
    match Currency.fiat? currency with
    | some fiat => o.tables.exchangeRates currency fiat start stop validatedOnly
    | none => []
  let water := o.summarize? prices
  let exchange := o.summarize? rates
  let count := prices.length + rates.length
  { currency
    date
    waterPrice := water.map Summary.value
    exchangeRate := exchange.map Summary.value
    count := UInt64.ofNat count
    stdDev := ((water <|> exchange).map Summary.stdDev).getD 0
    confidence := .ofCount count
    isSignificant := o.params.minSignificantSamples.toNat ≤ count
    isStable := o.wasStable currency (exchange.map Summary.value) stop
    blockHeight }

/-- Roll up every currency with observations on a day. -/
def rollUpDay (o : Oracle) (date : Date) (blockHeight : UInt64) : Outcome (List Rollup) :=
  match date.bounds? with
  | none => (.error (.beforeEpoch date), o)
  | some (start, stop) =>
    let currencies := o.tables.currenciesAt fun time => start ≤ time && time ≤ stop
    let rollups := currencies.map fun c => o.rollup c date start stop blockHeight
    o.commit (rollups.map .putRollup) rollups

def rollupsBetween (o : Oracle) (currency : String) (first last : Date) : List Rollup :=
  (o.tables.rollups.toList.filter fun (k, _) =>
    k.currency == currency && (compare first k.date).isLE && (compare k.date last).isLE).map (·.2)

end WaterPeg.Oracle
