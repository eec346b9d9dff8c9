import WaterPeg.Peg

/-! Processing a block, and checking the payouts of a block that was received. -/
namespace WaterPeg

structure BlockReport where
  /-- Invites that were flagged as expired. -/
  expired : Nat
  /-- The day that was rolled up, if the date changed. -/
  rolledUp : Option Date
  /-- Currencies with fresh averages. -/
  evaluated : Nat
  payouts : List Payout
deriving DecidableEq

namespace Peg

def isEarlier (a b : Date) : Bool := (compare a b).isLT

/-- If a later day has begun, roll up the latest one; gives the day rolled up. -/
def turnDay (p : Peg) (today : Date) (height : UInt64) : Outcome (Option Date) :=
  match p.lastDate with
  | none => (.ok none, { p with lastDate := some today })
  | some last =>
    if isEarlier last today then
      (p.withOracle fun o => o.rollUpDay last height).andThen fun _ p =>
        (.ok (some last), { p with lastDate := some today })
    else (.ok none, p)

def reEvaluated (p : Peg) (block : Block) : Nat × Stabilizer :=
  p.stabilizer.reEvaluate block.height block.timestamp p.oracle.feed

/-- Judge all currencies, pay out what the block calls for, and store the stabilizer's tables. -/
def settle (p : Peg) (block : Block) : Outcome (Nat × List Payout) :=
  let (evaluated, stabilizer) := p.reEvaluated block
  match stabilizer.create block with
  | .error e => (.error (.issuance e), { p with stabilizer })
  | .ok (payouts, stabilizer) =>
    ({ p with stabilizer }.store (checkpoint stabilizer payouts)).andThen fun _ p =>
      (.ok (evaluated, payouts), p)

/-- Process a block: let invites expire, roll up the day before if one is over, judge all currencies
and pay out. What was done before a failing step stays done. -/
def processBlock (p : Peg) (block : Block) : Outcome BlockReport :=
  match Date.ofTime? block.timestamp with
  | none => (.error (.noDate block.timestamp), p)
  | some today =>
    (p.withOracle fun o => o.expireInvites block.timestamp).andThen fun expired p =>
      (p.turnDay today block.height).andThen fun rolledUp p =>
        (p.settle block).andThen fun (evaluated, payouts) p =>
          (.ok { expired, rolledUp, evaluated, payouts }, p)

/-- Check the payouts of a block against those that processing it would make. -/
def validateBlock (p : Peg) (block : Block) (payouts : List Payout) : Except PegError Unit :=
  ((p.reEvaluated block).2.validate block payouts).mapError .issuance

/-! ## Upkeep -/

/-- Issue the invites for the prices and rates of a currency that are wanted today; gives their
number. A checked configuration always has a target. -/
def issueDaily (p : Peg) (currency : String) (now blockHeight : UInt64) : Outcome Nat :=
  let issue (kind : MeasurementKind) (p : Peg) : Outcome Nat :=
    (p.withOracle fun o =>
      o.issueForTarget ((o.target? kind currency now).getD 0) kind (some currency) now
        blockHeight).andThen fun invites p => (.ok invites.length, p)
  (issue .waterPrice p).andThen fun prices p =>
    (issue .exchangeRate p).andThen fun rates p => (.ok (prices + rates), p)

/-- Erase the stored records of payouts from below a height. -/
def eraseRecords (p : Peg) (height : UInt64) : Outcome Unit :=
  match p.oracle.store.records PayoutRecord .payout with
  | .error e => (.error (.store e), p)
  | .ok records =>
    let old := records.filter fun r => r.blockHeight < height
    if old.isEmpty then (.ok (), p)
    else p.store (old.map fun r => (RecordKind.payout.key r.id.bytes, none))

/-- Drop the observations from before a time and the records of payouts from below a height; gives
the numbers of both. -/
def prune (p : Peg) (cutoff height : UInt64) : Outcome (Nat × Nat) :=
  (p.withOracle fun o => o.prune cutoff).andThen fun readings p =>
    let (records, stabilizer) := p.stabilizer.prune height
    ({ p with stabilizer }.eraseRecords height).andThen fun _ p => (.ok (readings, records), p)

end Peg

end WaterPeg
