import WaterPeg.Oracle.Tables
import WaterPeg.Payout
import WaterPeg.Stability.Standing

/-! The record type behind each kind of stored record. -/
namespace WaterPeg

/-- A stored form brought into the form that is written, if it holds a record of the type. -/
def canonical? (α : Type) [JsonForm α] (stored : Bytes) : Option Bytes :=
  (decode? stored : Option α).map encode

def RecordKind.canonical? (kind : RecordKind) : Bytes → Option Bytes :=
  match kind with
  | .waterPrice => WaterPeg.canonical? (Reading WaterPrice)
  | .exchangeRate => WaterPeg.canonical? (Reading ExchangeRate)
  | .invite => WaterPeg.canonical? Invite
  | .sourceUrl => WaterPeg.canonical? SourceUrl
  | .rollup => WaterPeg.canonical? Rollup
  | .turnout => WaterPeg.canonical? Turnout
  | .firstSeen => WaterPeg.canonical? (String × UInt64)
  | .standing => WaterPeg.canonical? Standing
  | .payout => WaterPeg.canonical? PayoutRecord
  | .totals => WaterPeg.canonical? Totals

end WaterPeg
