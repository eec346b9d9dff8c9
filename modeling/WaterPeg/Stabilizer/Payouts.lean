import WaterPeg.Stabilizer

/-!
What a block pays out. The plan depends on the standings and the block alone, so that whoever
receives a block can make it again and compare.
-/
namespace WaterPeg

inductive IssuanceError
  | overflow (currency : String)
  | count (expected found : Nat)
  | mismatch (currency : String) (id : Digest)
deriving DecidableEq

def IssuanceError.name : IssuanceError → String
  | .overflow _ => "Overflow"
  | .count _ _ => "CountMismatch"
  | .mismatch _ _ => "TransactionMismatch"

def IssuanceError.message : IssuanceError → String
  | .overflow currency => s!"issuance for {currency} overflows"
  | .count expected found =>
    s!"expected {expected} stabilization transactions, block carries {found}"
  | .mismatch currency id =>
    s!"stabilization transaction {id.toHex} for {currency} does not match the recomputed plan"

namespace Stabilizer

/-- The coins that a currency issues in a block: none unless it has been unstable for long. -/
def coinsFor (s : Stabilizer) (currency : String) (block : Block) : Except IssuanceError UInt128 :=
  match s.standings[currency]? with
  | none => .ok 0
  | some i =>
    if s.mayIssue i block.height then
      match Issuance.coins? (block.volume currency) i.ratio s.params.coinFactor with
      | some coins => .ok coins
      | none => .error (.overflow currency)
    else .ok 0

def coins (s : Stabilizer) (block : Block) : Except IssuanceError UInt128 :=
  s.unstableCurrencies.foldlM
    (fun sum currency => do
      let coins ← s.coinsFor currency block
      match UInt128.ofNat? (sum.toNat + coins.toNat) with
      | some sum => .ok sum
      | none => .error (.overflow currency))
    0

def recipientCount (s : Stabilizer) (coins : UInt128) : Nat :=
  Issuance.recipientCount s.params coins

def recipients (s : Stabilizer) (count : Nat) (except : String) (block : Block) : List String :=
  Recipients.select (Recipients.pool s.directory s.stableCurrencies except) count block.hash except

/-- The payout of a currency in a block, if it issues coins and there is anyone to be rewarded. -/
def payout? (s : Stabilizer) (block : Block) (currency : String) :
    Except IssuanceError (Option Payout) := do
  let coins ← s.coinsFor currency block
  if coins = 0 then .ok none
  else
    let recipients := s.recipients (s.recipientCount coins) currency block
    if recipients.isEmpty then .ok none
    else
      let amount := Issuance.reward s.params coins recipients.length
      match UInt128.ofNat? (amount.toNat * recipients.length) with
      | none => .error (.overflow currency)
      | some paid =>
        .ok (some (.ofRecipients block currency amount paid (s.standing currency).ratio recipients))

/-- The payouts that a block must carry, by ascending currency. -/
def plan (s : Stabilizer) (block : Block) : Except IssuanceError (List Payout) := do
  let payouts ← s.unstableCurrencies.mapM (s.payout? block)
  .ok (payouts.filterMap id)

/-- Keep a record of a payout and count it, unless it is known. -/
def record (s : Stabilizer) (p : Payout) : Stabilizer :=
  if s.history.contains p.id then s
  else { s with history := s.history.insert p.id p.record, totals := s.totals.add p }

def create (s : Stabilizer) (block : Block) : Except IssuanceError (List Payout × Stabilizer) := do
  let payouts ← s.plan block
  .ok (payouts, payouts.foldl record s)

/-- A block must carry the payouts of its plan, in their order. -/
def validate (s : Stabilizer) (block : Block) (payouts : List Payout) :
    Except IssuanceError Unit := do
  let planned ← s.plan block
  if planned.length ≠ payouts.length then .error (.count planned.length payouts.length)
  else
    match (planned.zip payouts).find? fun (want, got) => want ≠ got with
    | some (_, got) => .error (.mismatch got.currency got.id)
    | none => .ok ()

end Stabilizer

end WaterPeg
