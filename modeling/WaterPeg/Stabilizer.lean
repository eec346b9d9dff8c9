import WaterPeg.Currency
import WaterPeg.Payout
import WaterPeg.PriceFeed
import WaterPeg.Stability.Issuance
import WaterPeg.Stability.Recipients
import WaterPeg.Stability.Standing

/-!
The stabilizer: how each currency stands, and what was paid out to bring currencies back to their
pegs. It holds no store; whoever owns it keeps its tables and gives them back.
-/
namespace WaterPeg

structure Stabilizer where
  params : StabilityParams
  directory : Directory
  standings : Table String Standing
  history : Table Digest PayoutRecord
  totals : Totals

namespace Stabilizer

def new (params : StabilityParams) (directory : Directory) : Stabilizer :=
  ⟨params, directory, ∅, ∅, .zero⟩

/-- Go on from these standings, records and totals. Of two with one name the later counts. -/
def restore (s : Stabilizer) (standings : List Standing) (history : List PayoutRecord)
    (totals : Totals) : Stabilizer :=
  { s with
    standings := standings.foldl (fun t i => t.insert i.currency i) ∅
    history := history.foldl (fun t r => t.insert r.id r) ∅
    totals }

/-! ## Standings -/

/-- The standing of a currency, or the one it would begin with. -/
def standing (s : Stabilizer) (currency : String) : Standing :=
  s.standings[currency]?.getD (.initial currency)

def withStatus (s : Stabilizer) (status : Stability) : List String :=
  (s.standings.values.filter fun i => i.status == status).map Standing.currency

def stableCurrencies (s : Stabilizer) : List String := s.withStatus .stable

def unstableCurrencies (s : Stabilizer) : List String := s.withStatus .unstable

/-- A currency that is not tracked counts as stable. -/
def isStable (s : Stabilizer) (currency : String) : Bool :=
  s.standings[currency]?.all fun i => i.status == .stable

/-- Tracked, and flagged as inactive or without fresh averages for too long. -/
def isInactive (s : Stabilizer) (currency : String) (height : UInt64) : Bool :=
  s.standings[currency]?.any fun i =>
    i.status == .inactive || i.isStale height s.params.inactiveBlocks

/-- A tracked currency has been unstable for long enough to issue coins. -/
def mayIssue (s : Stabilizer) (i : Standing) (height : UInt64) : Bool :=
  i.hasPersisted height s.params.unstableBlocks

def put (s : Stabilizer) (i : Standing) : Stabilizer :=
  { s with standings := s.standings.insert i.currency i }

def update (s : Stabilizer) (currency : String) (expected observed exchangeRate height : UInt64) :
    Stabilizer :=
  s.put ((s.standing currency).refresh s.params.threshold expected observed exchangeRate height)

def markInactive (s : Stabilizer) (currency : String) (height : UInt64) : Stabilizer :=
  s.put { (s.standing currency).retire with lastCheck := height }

/-- The currencies that have gone stale and are not flagged as inactive. -/
def overdue (s : Stabilizer) (height : UInt64) : List String :=
  (s.standings.values.filter fun i => i.isOverdue height s.params.inactiveBlocks).map
    Standing.currency

def refreshInactive (s : Stabilizer) (height : UInt64) : Stabilizer :=
  { s with
    standings := s.standings.map fun _ i =>
      if i.isOverdue height s.params.inactiveBlocks then i.retire else i }

/-! ## Judging by a feed -/

def averages? (s : Stabilizer) (feed : PriceFeed) (now : UInt64) (currency : String) :
    Option (UInt64 × UInt64) := do
  let fiat ← Currency.fiat? currency
  let price ← feed.waterPrice currency s.params.waterWindowDays now
  let rate ← feed.exchangeRate currency fiat s.params.exchangeWindowDays now
  some (price, rate)

/-- Judge a currency by the feed. Without both averages it keeps its standing until it is stale. A
currency that is not pegged is not judged. -/
def judge (feed : PriceFeed) (height now : UInt64) (s : Stabilizer) (currency : String) :
    Stabilizer :=
  match s.averages? feed now currency with
  | some (price, rate) => s.update currency (UInt64.ofNat microPerUnit) price rate height
  | none =>
    match s.standings[currency]? with
    | some i =>
      if Currency.isPegged currency && i.isOverdue height s.params.inactiveBlocks then
        s.put i.retire
      else s
    | none => s

/-- The currencies to judge: those tracked and those of the feed, in ascending order. -/
def judged (s : Stabilizer) (feed : PriceFeed) : List String :=
  ((∅ : Std.ExtTreeSet String).insertMany (s.standings.keys ++ feed.currencies)).toList

/-- Judge all currencies; gives the number of those with fresh averages. -/
def reEvaluate (s : Stabilizer) (height now : UInt64) (feed : PriceFeed) : Nat × Stabilizer :=
  let currencies := s.judged feed
  (currencies.countP fun c => (s.averages? feed now c).isSome,
    currencies.foldl (judge feed height now) s)

end Stabilizer

end WaterPeg
