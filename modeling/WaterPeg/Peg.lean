import WaterPeg.Oracle.Averages
import WaterPeg.Oracle.Days
import WaterPeg.Oracle.Issue
import WaterPeg.Oracle.Submission
import WaterPeg.Oracle.Upkeep
import WaterPeg.Oracle.Urls
import WaterPeg.Stabilizer.History
import WaterPeg.Stabilizer.Payouts

/-!
The peg of a node: an oracle, a stabilizer that is judged by it, and what both keep in the oracle's
store. The stabilizer's tables reach the store with each processed block.
-/
namespace WaterPeg

structure Peg where
  config : Config
  oracle : Oracle
  stabilizer : Stabilizer
  /-- The latest date of a block processed since the peg was opened. -/
  lastDate : Option Date

inductive PegError
  | config (why : ConfigError)
  | store (why : StoreError)
  | oracle (why : OracleError)
  | issuance (why : IssuanceError)
  | noDate (timestamp : UInt64)
deriving DecidableEq

def PegError.name : PegError → String
  | .config why => why.name
  | .store why => why.name
  | .oracle why => why.name
  | .issuance why => why.name
  | .noDate _ => "InvalidTimestamp"

def PegError.message : PegError → String
  | .config why => why.message
  | .store why => why.message
  | .oracle why => why.message
  | .issuance why => why.message
  | .noDate timestamp => s!"block timestamp {timestamp} has no calendar date"

namespace Peg

abbrev Outcome (α : Type) := Except PegError α × Peg

def directory (p : Peg) : Directory := p.oracle.directory

/-! ## What is stored of the stabilizer -/

def totalsId : Bytes := Bytes.ofString "lifetime"

def loadStabilizer (store : Store) (params : StabilityParams) (directory : Directory) :
    Except StoreError Stabilizer := do
  let standings ← store.records Standing .standing
  let history ← store.records PayoutRecord .payout
  let totals ← store.record? Totals .totals totalsId
  .ok ((Stabilizer.new params directory).restore standings history (totals.getD .zero))

/-- All standings, the records of some payouts, and the totals. -/
def checkpoint (s : Stabilizer) (payouts : List Payout) : Batch :=
  s.standings.toList.map (fun (currency, i) =>
    (RecordKind.standing.key (Bytes.ofString currency), some (encode i)))
    ++ payouts.map (fun p => (RecordKind.payout.key p.id.bytes, some (encode p.record)))
    ++ [(RecordKind.totals.key totalsId, some (encode s.totals))]

def open? (store : Store) (directory : Directory) (config : Config) : Except PegError Peg := do
  let config ← config.checked.mapError .config
  let oracle ← (Oracle.begin? store directory config).mapError .store
  let stabilizer ← (loadStabilizer store config.stabilization directory).mapError .store
  .ok { config, oracle, stabilizer, lastDate := none }

/-! ## Steps of an operation -/

def withOracle {α : Type} (p : Peg) (f : Oracle → Oracle.Outcome α) : Outcome α :=
  let (result, oracle) := f p.oracle
  (result.mapError .oracle, { p with oracle })

def store (p : Peg) (batch : Batch) : Outcome Unit :=
  match p.oracle.store.applyBatch batch with
  | .error e => (.error (.store e), p)
  | .ok store => (.ok (), { p with oracle := { p.oracle with store } })

/-- Go on with the result of a step, unless it failed. -/
def Outcome.andThen {α β : Type} (step : Outcome α) (next : α → Peg → Outcome β) : Outcome β :=
  match step with
  | (.error e, p) => (.error e, p)
  | (.ok a, p) => next a p

end Peg

end WaterPeg
