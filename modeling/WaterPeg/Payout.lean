import WaterPeg.Block
import WaterPeg.Digest.Sha3

/-! Payouts, one for each currency that issues coins in a block, and the records kept of them. -/
namespace WaterPeg

/-- Coins for one user, in minor units. -/
structure Payout.Output where
  recipient : String
  amount : UInt128
deriving DecidableEq

/-- The coins that one currency issues in one block. -/
structure Payout where
  id : Digest
  currency : String
  outputs : List Payout.Output
  /-- The sum of the outputs. -/
  coins : UInt128
  /-- The ratio that the coins were computed from. -/
  ratio : UInt64
  blockHeight : UInt64
  timestamp : UInt64
deriving DecidableEq

namespace Payout

def recipients (p : Payout) : List String := p.outputs.map (·.recipient)

def preimage (blockHash : Digest) (height : UInt64) (currency : String) (amount : UInt128)
    (recipients : List String) : Bytes :=
  Bytes.ofString "OPEG_STAB_TX_V1" ++ blockHash.bytes ++ Bytes.ofWord height
    ++ Bytes.framed (Bytes.ofString currency) ++ Bytes.littleEndian 16 amount.toNat
    ++ recipients.flatMap fun r => Bytes.framed (Bytes.ofString r)

def ofRecipients (block : Block) (currency : String) (amount coins : UInt128) (ratio : UInt64)
    (recipients : List String) : Payout where
  id := sha3 (preimage block.hash block.height currency amount recipients)
  currency
  outputs := recipients.map fun r => ⟨r, amount⟩
  coins
  ratio
  blockHeight := block.height
  timestamp := block.timestamp

end Payout

structure PayoutRecord where
  id : Digest
  currency : String
  coins : UInt128
  recipients : List String
  blockHeight : UInt64
  timestamp : UInt64
  ratio : UInt64
deriving DecidableEq

namespace Payout

def record (p : Payout) : PayoutRecord :=
  ⟨p.id, p.currency, p.coins, p.recipients, p.blockHeight, p.timestamp, p.ratio⟩

end Payout

namespace PayoutRecord

def fields : List String :=
  ["tx_id", "currency", "coins_created", "recipients", "block_height", "timestamp",
    "deviation_ppm"]

instance : JsonForm PayoutRecord where
  toJson r :=
    .record fields
      [toJson r.id, toJson r.currency, toJson r.coins, toJson r.recipients, toJson r.blockHeight,
        toJson r.timestamp, toJson r.ratio]
  ofJson? j :=
    match j.fields? fields with
    | some [id, currency, coins, recipients, blockHeight, timestamp, ratio] => do
      some
        { id := ← Json.required? id
          currency := ← Json.required? currency
          coins := ← Json.required? coins
          recipients := ← Json.required? recipients
          blockHeight := ← Json.required? blockHeight
          timestamp := ← Json.required? timestamp
          ratio := ← Json.required? ratio }
    | _ => none

end PayoutRecord

/-- Counts of all that was ever paid out. They do not shrink when records are pruned. -/
structure Totals where
  /-- Coins issued, at most the largest number of 128 bits. -/
  coins : UInt128
  payouts : UInt64
  recipients : UInt64
deriving DecidableEq

namespace Totals

def zero : Totals := ⟨0, 0, 0⟩

instance : Inhabited Totals := ⟨zero⟩

def add (t : Totals) (p : Payout) : Totals where
  coins := UInt128.ofNatClamp (t.coins.toNat + p.coins.toNat)
  payouts := t.payouts + 1
  recipients := t.recipients + UInt64.ofNat p.outputs.length

def fields : List String := ["coins_created", "transactions", "recipients"]

instance : JsonForm Totals where
  toJson t := .record fields [toJson t.coins, toJson t.payouts, toJson t.recipients]
  ofJson? j :=
    match j.fields? fields with
    | some [coins, payouts, recipients] => do
      some
        { coins := ← Json.required? coins
          payouts := ← Json.required? payouts
          recipients := ← Json.required? recipients }
    | _ => none

end Totals

end WaterPeg
